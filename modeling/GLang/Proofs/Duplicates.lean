import GLang.Proofs.DataOperands
import GLang.Proofs.Reindex
import GLang.Proofs.ResolvedTypes

/-!
# Declarations that come too late

Of two declarations with one name the first counts. The later one is not compiled, and if its name
has been settled before, the tables of the program do not change by it. But its signature is read,
so that there can be a diagnostic for it, and its string literals are numbered with all others.

* `Declarations.add_of_isSettled`, `Generator.functions_of_repeats`: what a later declaration still
  does.
* `Asm.Listing.data_eq_of_text_eq`: from the text of a listing the data of its literals can be read
  off.
* `assembly_of_repeated`: a program with a later declaration, and the program without it.
-/

namespace GLang

open Asm

/-! ### Outcomes -/

namespace Program

/-- All that is wrong with a program. -/
def diagnostics (p : Program) : List Diagnostic :=
  (Declarations.add {} p).2 ++ ((Generator.start {} p).1.functions [] p.items).2.1

/-- The listing of a program, if nothing is wrong with it. -/
def listing (p : Program) : Listing where
  imports := ((Declarations.add {} p).1.functions.externals.map (·.name)).filter (· ≠ "memcpy")
  literals := (Declarations.add {} p).1.literals
  functions := ((Generator.start {} p).1.functions [] p.items).1

theorem generate_eq (p : Program) : (Generator.generate {} p).1 =
    if p.diagnostics.isEmpty then .ok p.listing else .error p.diagnostics := by
  have hdeclarations := Generator.toDeclarations_functions p.items (Generator.start {} p).1 []
  unfold Generator.generate
  simp only
  split
  · rename_i hempty
    rw [if_pos (show p.diagnostics.isEmpty from hempty)]
    show Except.ok (Listing.mk (((Context.toDeclarations _).functions.externals.map _).filter _)
      (Context.toDeclarations _).literals _) = _
    rw [hdeclarations]
    rfl
  · rename_i hsome
    rw [if_neg (show ¬ p.diagnostics.isEmpty from hsome)]
    rfl

theorem assembly_eq_ok {p : Program} (h : p.diagnostics = []) :
    p.assembly = .ok p.listing.text := by
  rw [assembly, Generator.assemble_eq, generate_eq, h]
  rfl

theorem assembly_eq_error {p : Program} (h : p.diagnostics ≠ []) :
    p.assembly = .error p.diagnostics := by
  rw [assembly, Generator.assemble_eq, generate_eq, if_neg (by simpa using h)]
  rfl

theorem isOk_assembly {p : Program} : p.assembly.isOk ↔ p.diagnostics = [] := by
  by_cases h : p.diagnostics = []
  · simp [assembly_eq_ok h, h, Except.isOk, Except.toBool]
  · simp [assembly_eq_error h, h, Except.isOk, Except.toBool]

end Program

/-! ### Later declarations -/

namespace Item

def name : Item → String
  | external decl | function decl => decl.name
  | struct decl => decl.name

/-- The string literals in an item. -/
def strings : Item → List String
  | function decl => Stmt.blockStrings decl.body
  | external _ | struct _ => []

/-- Whether two items declare one name, and are of one kind. -/
def Repeats : Item → Item → Prop
  | function decl, function decl' => decl.name = decl'.name
  | external decl, external decl' => decl.name = decl'.name
  | struct decl, struct decl' => decl.name = decl'.name
  | _, _ => False

/-- Whether the items `pre` settle what the name of an item stands for, in a program with the given
structs. They do not if they only have declarations of it that cannot be read. -/
def isSettled (structs : StructTable) (pre : List Item) : Item → Bool
  | struct decl => (Declarations.addStructs {} pre).1.contains decl.name
  | external decl | function decl => (Declarations.addFunctions structs {} pre).1.contains decl.name

/-- What is wrong with the signature of an item. -/
def fault? (structs : StructTable) (item : Item) : Option LoweringError :=
  match item.function? with
  | none => none
  | some (decl, defined) =>
    match decl.signature structs defined with
    | .ok _ => none
    | .error e => some e

variable {item first : Item}

theorem Repeats.cases (h : item.Repeats first) :
    (∃ decl decl', item = .struct decl ∧ first = .struct decl' ∧ decl.name = decl'.name) ∨
    ∃ decl decl' defined, item.function? = some (decl, defined) ∧
      first.function? = some (decl', defined) ∧ decl.name = decl'.name := by
  cases item with
  | struct decl =>
    cases first with
    | struct decl' => exact .inl ⟨decl, decl', rfl, rfl, h⟩
    | external | function => cases h
  | external decl =>
    cases first with
    | external decl' => exact .inr ⟨decl, decl', true, rfl, rfl, h⟩
    | struct | function => cases h
  | function decl =>
    cases first with
    | function decl' => exact .inr ⟨decl, decl', false, rfl, rfl, h⟩
    | struct | external => cases h

theorem of_function? {decl : FunctionDecl} {defined : Bool}
    (h : item.function? = some (decl, defined)) (structs : StructTable) (pre : List Item) :
    item.name = decl.name ∧
      item.isSettled structs pre =
        (Declarations.addFunctions structs {} pre).1.contains decl.name := by
  cases item with
  | struct => cases h
  | external | function =>
    cases h
    exact ⟨rfl, rfl⟩

end Item

theorem Program.strings_eq (p : Program) : p.strings = p.items.flatMap Item.strings := by
  unfold Program.strings
  refine congrArg (List.flatMap · p.items) (funext fun item => ?_)
  cases item <;> rfl

theorem StructTable.contains_insert_self (structs : StructTable) (s : StructSignature) :
    (structs.insert s).contains s.name := by
  unfold insert
  split
  · assumption
  · simp [contains, get?, List.find?_append]

namespace Declarations

theorem addStructs_append (pre post : List Item) : ∀ structs : StructTable,
    addStructs structs (pre ++ post) =
      ((addStructs (addStructs structs pre).1 post).1,
        (addStructs structs pre).2 ++ (addStructs (addStructs structs pre).1 post).2) := by
  induction pre with
  | nil => exact fun _ => rfl
  | cons item pre ih =>
    intro structs
    cases item with
    | external | function => exact ih structs
    | struct decl =>
      rw [List.cons_append, addStructs, addStructs]
      split
      · exact ih structs
      · split
        · exact ih _
        · rw [ih]
          rfl

theorem addFunctions_append (structs : StructTable) (pre post : List Item) :
    ∀ functions : FunctionTable, addFunctions structs functions (pre ++ post) =
      ((addFunctions structs (addFunctions structs functions pre).1 post).1,
        (addFunctions structs functions pre).2 ++
          (addFunctions structs (addFunctions structs functions pre).1 post).2) := by
  induction pre with
  | nil => exact fun _ => rfl
  | cons item pre ih =>
    intro functions
    rw [List.cons_append, addFunctions, addFunctions]
    split
    · exact ih functions
    · split
      · exact ih _
      · rw [ih]
        rfl

theorem contains_addStructs {decl : StructDecl} {items : List Item} : ∀ {structs : StructTable},
    (addStructs structs items).2 = [] → .struct decl ∈ items ∨ structs.contains decl.name →
    (addStructs structs items).1.contains decl.name := by
  induction items with
  | nil => exact fun _ h => h.resolve_left List.not_mem_nil
  | cons item items ih =>
    intro structs hread h
    cases item with
    | external | function => exact ih hread (h.imp_left fun hmem => by simpa using hmem)
    | struct first =>
      rw [addStructs] at hread ⊢
      by_cases hfirst : structs.contains first.name
      · rw [if_pos hfirst] at hread ⊢
        refine ih hread (h.elim (fun hmem => ?_) .inr)
        rcases List.mem_cons.1 hmem with heq | hmem
        · cases heq
          exact .inr hfirst
        · exact .inl hmem
      · rw [if_neg hfirst] at hread ⊢
        cases hlayout : first.layout structs with
        | error e =>
          rw [hlayout] at hread
          cases hread
        | ok s =>
          rw [hlayout] at hread
          refine ih hread (h.elim (fun hmem => ?_) fun hknown => .inr ?_)
          · rcases List.mem_cons.1 hmem with heq | hmem
            · cases heq
              rw [← (StructDecl.known_of_layout hlayout).1]
              exact .inr (structs.contains_insert_self s)
            · exact .inl hmem
          · obtain ⟨s', hs'⟩ := Option.isSome_iff_exists.1 hknown
            exact Option.isSome_iff_exists.2 ⟨s', structs.extends_insert s _ _ hs'⟩

theorem ne_nil_of_not_isSettled {structs : StructTable} {pre : List Item} {item : Item}
    (h : ∃ first ∈ pre, item.Repeats first) (hs : item.isSettled structs pre = false) :
    (addStructs {} pre).2 ≠ [] ∨ (addFunctions structs {} pre).2 ≠ [] := by
  obtain ⟨first, hfirst, hrepeats⟩ := h
  obtain ⟨decl, decl', rfl, rfl, hname⟩ | ⟨decl, decl', defined, hitem, hdecl', hname⟩ :=
    hrepeats.cases
  · refine .inl fun hread => ?_
    have hcontains := contains_addStructs hread (.inl hfirst)
    rw [← hname] at hcontains
    cases hs.symm.trans hcontains
  · obtain ⟨-, hsettled⟩ := Item.of_function? hitem structs pre
    refine .inr fun hread => ?_
    have hcontains := contains_addFunctions hdecl' hread (.inl hfirst)
    rw [← hname, ← hsettled] at hcontains
    cases hs.symm.trans hcontains

theorem addStructs_of_isSettled {structs : StructTable} {pre : List Item} {item : Item}
    (hs : item.isSettled structs pre) (post : List Item) :
    addStructs {} (pre ++ item :: post) = addStructs {} (pre ++ post) := by
  rw [addStructs_append, addStructs_append]
  cases item with
  | external | function => rfl
  | struct decl => rw [addStructs, if_pos (show (addStructs {} pre).1.contains decl.name from hs)]

theorem addFunctions_of_isSettled {structs : StructTable} {pre : List Item} {item : Item}
    (hs : item.isSettled structs pre) (post : List Item) :
    ∃ a b,
      addFunctions structs {} (pre ++ post) = ((addFunctions structs {} (pre ++ post)).1, a ++ b) ∧
      addFunctions structs {} (pre ++ item :: post) =
        ((addFunctions structs {} (pre ++ post)).1,
          a ++ (item.fault? structs).toList.map (⟨item.name, ·⟩) ++ b) := by
  rw [addFunctions_append, addFunctions_append]
  refine ⟨_, _, rfl, ?_⟩
  rw [addFunctions, Item.fault?]
  cases hitem : item.function? with
  | none => simp
  | some q =>
    obtain ⟨decl, defined⟩ := q
    obtain ⟨hname, hsettled⟩ := Item.of_function? hitem structs pre
    rw [hsettled] at hs
    simp only
    cases hsignature : decl.signature structs defined with
    | error e => simp [hname]
    | ok f =>
      have hcontains : (addFunctions structs {} pre).1.contains f.name := by
        rw [(FunctionDecl.name_of_signature hsignature).1]
        exact hs
      simp [FunctionTable.insert, hcontains]

/-- **What a later declaration still does,** if its name has been settled: its literals are
numbered, and there is a diagnostic if its signature cannot be read. -/
theorem add_of_isSettled {p q : Program} {pre post : List Item} {item : Item}
    (hp : p.items = pre ++ item :: post) (hq : q.items = pre ++ post)
    (hs : item.isSettled (addStructs {} q.items).1 pre) :
    (add {} p).1 = { (add {} q).1 with literals := .internAll {} p.strings } ∧
    ∃ a b, (add {} q).2 = a ++ b ∧ (add {} p).2 =
      a ++ (item.fault? (addStructs {} q.items).1).toList.map (⟨item.name, ·⟩) ++ b := by
  have hstructs : addStructs {} p.items = addStructs {} q.items := by
    rw [hp, hq]
    exact addStructs_of_isSettled hs post
  obtain ⟨a, b, hq', hp'⟩ := addFunctions_of_isSettled hs post
  rw [← hp, ← hq] at hp'
  rw [← hq] at hq'
  unfold add
  simp only [hstructs]
  rw [hp', hq']
  refine ⟨rfl, (addStructs {} q.items).2 ++ a, b, ?_, ?_⟩
  · simp
  · simp

end Declarations

namespace Generator

/-- **A later definition is not compiled.** -/
theorem functions_of_repeats {item : Item} (post : List Item) (pre : List Item) :
    ∀ (g : Generator) (seen : List String),
    (∀ decl, item = .function decl → decl.name ∈ seen ∨ ∃ first ∈ pre, item.Repeats first) →
    g.functions seen (pre ++ item :: post) = g.functions seen (pre ++ post) := by
  induction pre with
  | nil =>
    intro g seen h
    cases item with
    | external | struct => rfl
    | function decl =>
      have hseen : decl.name ∈ seen := (h decl rfl).resolve_right (by simp)
      rw [List.nil_append, List.nil_append, functions, if_pos (by simpa using hseen)]
  | cons first pre ih =>
    intro g seen h
    cases first with
    | external | struct =>
      refine ih g seen fun decl hdecl => (h decl hdecl).imp_right ?_
      subst hdecl
      rintro ⟨first', hfirst', hrepeats⟩
      rcases List.mem_cons.1 hfirst' with rfl | hfirst'
      · cases hrepeats
      · exact ⟨first', hfirst', hrepeats⟩
    | function first =>
      -- The name counts as seen from here on, if it is that of the item.
      have hnext : ∀ decl, item = .function decl →
          decl.name ∈ first.name :: seen ∨ ∃ first ∈ pre, item.Repeats first := by
        rintro decl rfl
        obtain hseen | ⟨first', hfirst', hrepeats⟩ := h decl rfl
        · exact .inl (List.mem_cons_of_mem _ hseen)
        · rcases List.mem_cons.1 hfirst' with rfl | hfirst'
          · exact .inl (List.mem_cons.2 (.inl hrepeats))
          · exact .inr ⟨first', hfirst', hrepeats⟩
      rw [List.cons_append, List.cons_append, functions, functions]
      by_cases hseen : seen.contains first.name
      · rw [if_pos hseen, if_pos hseen]
        refine ih g seen fun decl hdecl => (hnext decl hdecl).imp_left fun hmem => ?_
        rcases List.mem_cons.1 hmem with heq | hmem
        · simpa [heq] using hseen
        · exact hmem
      · rw [if_neg hseen, if_neg hseen]
        split
        · exact ih g _ hnext
        · split
          · rw [ih _ _ hnext]
          · rw [ih _ _ hnext]

end Generator

/-! ### Literals -/

namespace LiteralPool

/-- The number in `P'` of a literal that has the number `k` in `P`. -/
def moved (P P' : LiteralPool) (k : Nat) : Nat :=
  P'.texts.idxOf (P.texts[k]?.getD "")

theorem sends_moved {P P' : LiteralPool} {raw : String} (h : raw ∈ P.texts) (h' : raw ∈ P'.texts) :
    P.Sends (P.moved P') P' raw := by
  rw [Sends, label_of_mem h, label_of_mem h', Except.map, Label.reindex, moved,
    List.getElem?_idxOf h, Option.getD_some]

end LiteralPool

namespace Asm.Listing

/-- Two listings that differ only in the numbers of literals, and in literals that are not used.
Code that is not plain is not compared. -/
structure Renumbered (l l' : Listing) : Prop where
  imports : l'.imports = l.imports
  functions :
    List.Forall₂ (Code.Reindexed (l.literals.moved l'.literals)) l.functions l'.functions

/-- The data section, from the `k`-th literal on. -/
def dataText (k : Nat) (raws : List String) : String :=
  String.join ((raws.zipIdx k).map fun entry => dataLine entry.1 (.literal entry.2))

theorem dataText_cons (k : Nat) (raw : String) (raws : List String) :
    (dataText k (raw :: raws)).toList = ((Label.literal k).text ++ ": db ").toList ++
      ((Literal.operands raw).toList ++ '\n' :: (dataText (k + 1) raws).toList) := by
  have hline : dataLine raw (.literal k) =
      (Label.literal k).text ++ ": db " ++ Literal.operands raw ++ "\n" := rfl
  rw [dataText, List.zipIdx_cons, List.map_cons, String.join_cons, hline, ← dataText]
  simp [String.toList_append]

theorem head?_dataText_cons (k : Nat) (raw : String) (raws : List String) (rest : List Char) :
    ((dataText k (raw :: raws)).toList ++ rest).head? = some '_' := by
  rw [dataText_cons, show (Label.literal k).text = "__str" ++ toString k from rfl]
  simp [String.toList_append]

/-- **A text begins with the data of one list of literals at most,** if no entry follows. -/
theorem data_eq_of_append {x y : List Char} (hx : x.head? = some 's') (hy : y.head? = some 's')
    (raws : List String) : ∀ (k : Nat) (raws' : List String),
    (dataText k raws).toList ++ x = (dataText k raws').toList ++ y →
    raws.map Literal.data = raws'.map Literal.data := by
  have hstops : ∀ rest, Literal.Stops ('\n' :: rest) := by
    intro rest c hc
    cases hc
    decide
  induction raws with
  | nil =>
    intro k raws' h
    cases raws' with
    | nil => rfl
    | cons raw' raws' =>
      have hhead := congrArg List.head? h
      rw [head?_dataText_cons] at hhead
      cases hx.symm.trans hhead
  | cons raw raws ih =>
    intro k raws' h
    cases raws' with
    | nil =>
      have hhead := congrArg List.head? h
      rw [head?_dataText_cons] at hhead
      cases hy.symm.trans hhead.symm
    | cons raw' raws' =>
      simp only [dataText_cons, List.append_assoc, List.cons_append] at h
      obtain ⟨hdata, hrest⟩ := (Literal.reads_of_operands raw).eq_of_append
        (Literal.reads_of_operands raw') (List.append_cancel_left h) (hstops _) (hstops _)
        (by simp) (by simp)
      rw [List.map_cons, List.map_cons, List.append_cancel_right hdata,
        ih (k + 1) raws' (List.cons.inj hrest).2]

/-- **The text of a listing tells the data of its literals.** -/
theorem data_eq_of_text_eq {l l' : Listing} (himports : l'.imports = l.imports)
    (h : l'.text = l.text) :
    l'.literals.texts.map Literal.data = l.literals.texts.map Literal.data := by
  have htext : ∀ l : Listing, l.text.toList = ("BITS 32\nglobal main\nextern memcpy\n" ++
      String.join (l.imports.map fun name => s!"extern {name}\n") ++ "section .data\n").toList ++
      ((dataText 0 l.literals.texts).toList ++ ("section .text\n" ++
        String.join (l.functions.map fun code => "\n" ++ code.text)).toList) := by
    intro l
    have hdata : String.join (l.literals.entries.map fun entry => dataLine entry.1 entry.2) =
        dataText 0 l.literals.texts := by
      unfold LiteralPool.entries dataText
      rw [List.map_map]
      rfl
    rw [← String.toList_append, ← String.toList_append, ← hdata]
    simp only [← String.append_assoc]
    rfl
  have hsection : ∀ rest : String, ("section .text\n" ++ rest).toList.head? = some 's' :=
    fun rest => by simp [String.toList_append]
  have hlists := congrArg String.toList h
  rw [htext, htext, himports] at hlists
  exact data_eq_of_append (hsection _) (hsection _) _ 0 _ (List.append_cancel_left hlists)

end Asm.Listing

/-! ### Programs -/

section

variable {p q : Program} {pre post : List Item} {item : Item}

theorem Program.diagnostics_ne_nil_of_not_isSettled (hp : p.items = pre ++ post)
    (h : ∃ first ∈ pre, item.Repeats first)
    (hs : item.isSettled (Declarations.addStructs {} p.items).1 pre = false) :
    p.diagnostics ≠ [] := by
  intro hnil
  have hread := (List.append_eq_nil_iff.1 hnil).1
  obtain ⟨hstructs, hfunctions⟩ := List.append_eq_nil_iff.1 hread
  rw [hp, Declarations.addStructs_append] at hstructs
  obtain hne | hne := Declarations.ne_nil_of_not_isSettled h hs
  · exact hne (List.append_eq_nil_iff.1 hstructs).1
  · rw [hp, Declarations.addFunctions_append] at hfunctions
    rw [hp] at hne
    exact hne (List.append_eq_nil_iff.1 hfunctions).1

/-- Which structs the program has does not matter, as they are the same with and without a
function. -/
theorem Item.isSettled_eq (hp : p.items = pre ++ item :: post) (hq : q.items = pre ++ post) :
    item.isSettled (Declarations.addStructs {} p.items).1 pre =
      item.isSettled (Declarations.addStructs {} q.items).1 pre := by
  cases item with
  | struct => rfl
  | external | function =>
    rw [hp, hq, Declarations.addStructs_append, Declarations.addStructs_append]
    rfl

/-- **A program with a later declaration, and without it.** There may be one more diagnostic, and
the literals may have other numbers. -/
theorem Program.renumbered_of_isSettled (hp : p.items = pre ++ item :: post)
    (hq : q.items = pre ++ post) (h : ∃ first ∈ pre, item.Repeats first)
    (hs : item.isSettled (Declarations.addStructs {} q.items).1 pre) :
    q.listing.Renumbered p.listing ∧
    (LiteralPool.internAll {} p.strings = .internAll {} q.strings → p.listing = q.listing) ∧
    ∃ a b, q.diagnostics = a ++ b ∧ p.diagnostics =
      a ++ (item.fault? (Declarations.addStructs {} q.items).1).toList.map (⟨item.name, ·⟩) ++
        b := by
  obtain ⟨hdeclarations, a, b, hqRead, hpRead⟩ := Declarations.add_of_isSettled hp hq hs
  have hstart : (Generator.start {} p).1 =
      (Generator.start {} q).1.withLiterals (.internAll {} p.strings) := by
    show ({ context := { toDeclarations := (Declarations.add {} p).1 } } : Generator) = _
    rw [hdeclarations]
    rfl
  have hsame : (Generator.start {} q).1 =
      (Generator.start {} q).1.withLiterals (.internAll {} q.strings) := rfl
  have hfunctions : (Generator.start {} p).1.functions [] p.items =
      ((Generator.start {} q).1.withLiterals (.internAll {} p.strings)).functions [] q.items := by
    rw [hstart, hp, hq]
    exact Generator.functions_of_repeats post pre _ _ fun _ _ => .inr h
  have hsends : ∀ decl, .function decl ∈ q.items → ∀ raw ∈ Stmt.blockStrings decl.body,
      (LiteralPool.internAll {} q.strings).Sends
        (LiteralPool.moved (.internAll {} q.strings) (.internAll {} p.strings))
        (.internAll {} p.strings) raw := by
    intro decl hdecl raw hraw
    have hdecl' : .function decl ∈ p.items := by
      rw [hq, List.mem_append] at hdecl
      rw [hp, List.mem_append, List.mem_cons]
      exact hdecl.imp_right .inr
    exact LiteralPool.sends_moved (Declarations.blockStrings_subset hdecl {} hraw)
      (Declarations.blockStrings_subset hdecl' {} hraw)
  obtain ⟨hcodes, hdiagnostics⟩ :=
    Generator.functions_reindex q.items (Generator.start {} q).1 [] hsends
  rw [← hfunctions, ← hsame] at hcodes hdiagnostics
  refine ⟨⟨?_, hcodes⟩, fun hpools => ?_, a,
    b ++ ((Generator.start {} q).1.functions [] q.items).2.1, ?_, ?_⟩
  · rw [listing, listing, hdeclarations]
  · rw [listing, hfunctions, hdeclarations, hpools]
    rfl
  · rw [diagnostics, hqRead, List.append_assoc]
  · rw [diagnostics, hpRead, ← hdiagnostics, List.append_assoc]

theorem Program.strings_subset_of_text_eq (hp : p.items = pre ++ item :: post)
    (hq : q.items = pre ++ post) (himports : p.listing.imports = q.listing.imports)
    (h : p.listing.text = q.listing.text) : item.strings ⊆ q.strings := by
  have hmem : ∀ {r : Program} {raw : String},
      raw ∈ r.listing.literals.texts ↔ raw ∈ r.items.flatMap Item.strings := by
    intro r raw
    rw [← r.strings_eq]
    exact LiteralPool.mem_internAll.trans (by simp)
  have hsubset : q.listing.literals.texts ⊆ p.listing.literals.texts := by
    intro raw hraw
    rw [hmem, hq, List.flatMap_append, List.mem_append] at hraw
    rw [hmem, hp, List.flatMap_append, List.flatMap_cons, List.mem_append, List.mem_append]
    exact hraw.imp_right .inr
  have hlength := congrArg List.length (Listing.data_eq_of_text_eq himports h)
  rw [List.length_map, List.length_map] at hlength
  have hperm := (List.subperm_of_subset (LiteralPool.nodup_internAll q.strings {} List.nodup_nil)
    hsubset).perm_of_length_le hlength.le
  intro raw hraw
  rw [q.strings_eq, ← hmem]
  refine hperm.mem_iff.2 (hmem.2 ?_)
  rw [hp, List.flatMap_append, List.flatMap_cons]
  exact List.mem_append_right _ (List.mem_append_left _ hraw)

/-- **The first declaration of a name wins, but a later one is not quite ignored.** Let an item come
after another one of its kind and name.

* If no earlier declaration of the name can be read, the program is rejected with the item and
  without it.
* If one can, the program with the item has one more diagnostic in the case that the signature of
  the item cannot be read.
* Otherwise it has the same diagnostics, or it compiles to the same but for the literals. The text
  is the same if the program is rejected or if the item does not change the numbers of literals, and
  it can only be the same if the item has no literals of its own. -/
theorem Program.assembly_of_repeated (hp : p.items = pre ++ item :: post)
    (hq : q.items = pre ++ post) (h : ∃ first ∈ pre, item.Repeats first) :
    (item.isSettled (Declarations.addStructs {} q.items).1 pre = false →
      p.assembly.isOk = false ∧ q.assembly.isOk = false) ∧
    (item.isSettled (Declarations.addStructs {} q.items).1 pre →
      (∀ e, item.fault? (Declarations.addStructs {} q.items).1 = some e →
        ∃ a b, p.assembly = .error (a ++ ⟨item.name, e⟩ :: b) ∧
          (q.assembly = .error (a ++ b) ∨ a ++ b = [] ∧ q.assembly.isOk)) ∧
      (item.fault? (Declarations.addStructs {} q.items).1 = none →
        SameOutcome Listing.Renumbered (Generator.generate {} q).1 (Generator.generate {} p).1 ∧
        (q.assembly.isOk = false ∨ LiteralPool.internAll {} p.strings = .internAll {} q.strings →
          p.assembly = q.assembly) ∧
        (q.assembly.isOk → p.assembly = q.assembly → item.strings ⊆ q.strings))) := by
  refine ⟨fun hs => ?_, fun hs => ?_⟩
  · have hs' := (Item.isSettled_eq hp hq).trans hs
    have hpne := Program.diagnostics_ne_nil_of_not_isSettled hp h hs'
    have hqne := Program.diagnostics_ne_nil_of_not_isSettled hq h hs
    exact ⟨Bool.eq_false_iff.2 (mt isOk_assembly.1 hpne),
      Bool.eq_false_iff.2 (mt isOk_assembly.1 hqne)⟩
  · obtain ⟨hlisting, hsame, a, b, hqFaults, hpFaults⟩ := Program.renumbered_of_isSettled hp hq h hs
    refine ⟨fun e he => ⟨a, b, ?_, ?_⟩, fun hnone => ?_⟩
    · rw [he] at hpFaults
      rw [assembly_eq_error (by simp [hpFaults]), hpFaults]
      simp
    · by_cases hnil : q.diagnostics = []
      · exact .inr ⟨hqFaults ▸ hnil, isOk_assembly.2 hnil⟩
      · exact .inl (hqFaults ▸ assembly_eq_error hnil)
    · have hdiagnostics : p.diagnostics = q.diagnostics := by
        rw [hpFaults, hqFaults, hnone]
        simp
      refine ⟨?_, fun hcases => ?_, fun hok heq => ?_⟩
      · rw [generate_eq, generate_eq, hdiagnostics]
        split
        · exact .ok hlisting
        · exact .error _
      · by_cases hnil : q.diagnostics = []
        · have hpools := hcases.resolve_left (by simp [isOk_assembly.2 hnil])
          rw [assembly_eq_ok hnil, assembly_eq_ok (hdiagnostics.trans hnil), hsame hpools]
        · rw [assembly_eq_error hnil, assembly_eq_error (hdiagnostics ▸ hnil), hdiagnostics]
      · have hnil := isOk_assembly.1 hok
        rw [assembly_eq_ok hnil, assembly_eq_ok (hdiagnostics.trans hnil)] at heq
        exact Program.strings_subset_of_text_eq hp hq hlisting.imports (Except.ok.inj heq)

end

/-- `fn f(s: u8*) { }`, with any body. -/
def textFunction (body : Block) : Item :=
  .function ⟨"f", [⟨"s", "u8*"⟩], none, body⟩

/-- `fn g() { f("b"); }` -/
def callOfText : Item :=
  .function ⟨"g", [], none, [.run (.call "f" [.str "b"])]⟩

/-- The literal of a function that comes too late is in the text, and takes the first number. -/
theorem Program.assembly_of_repeated_literal :
    SameOutcome Listing.Renumbered
      (Generator.generate {} ⟨[textFunction [], callOfText]⟩).1
      (Generator.generate {}
        ⟨[textFunction [], textFunction [.run (.call "f" [.str "a"])], callOfText]⟩).1 ∧
    (Program.assembly ⟨[textFunction [], callOfText]⟩).isOk ∧
    Program.assembly ⟨[textFunction [], textFunction [.run (.call "f" [.str "a"])], callOfText]⟩ ≠
      Program.assembly ⟨[textFunction [], callOfText]⟩ := by
  have hrepeated := @Program.assembly_of_repeated
    ⟨[textFunction [], textFunction [.run (.call "f" [.str "a"])], callOfText]⟩
    ⟨[textFunction [], callOfText]⟩ [textFunction []] [callOfText]
    (textFunction [.run (.call "f" [.str "a"])]) rfl rfl ⟨_, List.mem_cons_self, rfl⟩
  have hok : (Program.assembly ⟨[textFunction [], callOfText]⟩).isOk := by decide +kernel
  obtain ⟨houtcome, -, hsubset⟩ := (hrepeated.2 (by decide +kernel)).2 rfl
  refine ⟨houtcome, hok, fun heq => ?_⟩
  have hmem : "a" ∈ Program.strings ⟨[textFunction [], callOfText]⟩ :=
    hsubset hok heq (by simp [textFunction, Item.strings, Stmt.blockStrings, Stmt.strings,
      Expr.strings, Expr.argsStrings])
  exact absurd hmem (by decide +kernel)

/-- The signature of a function that comes too late is read: `fn f() { } fn f(x: Missing) { }` is
rejected, and `fn f() { }` is not. -/
theorem Program.later_signature_is_read :
    Program.assembly
        ⟨[.function ⟨"f", [], none, []⟩, .function ⟨"f", [⟨"x", "Missing"⟩], none, []⟩]⟩ =
      .error [⟨"f", .unknownType "Missing"⟩] ∧
    (Program.assembly ⟨[.function ⟨"f", [], none, []⟩]⟩).isOk := by
  decide +kernel

end GLang
