import GLang.Proofs.Derivation
import GLang.Proofs.Labels
import GLang.Proofs.Lexemes
import GLang.Proofs.Listing

/-!
# The symbols of a listing

The assembler knows labels by their text. A text that starts with a point is local to the function
above it; all others are symbols of the whole listing, and so are the names of imported functions.

* `Label.text_injective`: labels that are not given by name have different texts.
* `Listing.globals`, `Listing.externs`: the symbols that a listing defines and imports.
  `Generator.globals_eq`: it defines its literals and its functions.
* `Generator.distinct_symbols_iff`: when no symbol is defined twice or both defined and imported.
-/

namespace GLang

open Asm Gen

/-! ### The texts of labels -/

/-- Numbers with underscores between them. -/
def spelled : List Nat → List Char
  | [] => []
  | n :: rest => Nat.toDigits 10 n ++ rest.flatMap ('_' :: Nat.toDigits 10 ·)

theorem toDigits_injective {n m : Nat} (h : Nat.toDigits 10 n = Nat.toDigits 10 m) : n = m := by
  have hvalue := congrArg Text.value h
  have hn : Text.value (Nat.toDigits 10 n) = n := Nat.ofDigitChars_ten_toDigits
  have hm : Text.value (Nat.toDigits 10 m) = m := Nat.ofDigitChars_ten_toDigits
  rwa [hn, hm] at hvalue

theorem isDigit_of_mem_toDigits {n : Nat} {c : Char} (h : c ∈ Nat.toDigits 10 n) : c.isDigit :=
  Nat.isDigit_of_mem_toDigits (by decide) (by decide) h

theorem flatMap_toDigits_injective {ns : List Nat} : ∀ {ms : List Nat},
    ns.flatMap ('_' :: Nat.toDigits 10 ·) = ms.flatMap ('_' :: Nat.toDigits 10 ·) → ns = ms := by
  have hstop : ∀ (ns : List Nat) (d : Char),
      (ns.flatMap ('_' :: Nat.toDigits 10 ·)).head? = some d → d.isDigit = false := by
    intro ns d hd
    cases ns with
    | nil => cases hd
    | cons n ns =>
      cases hd
      rfl
  induction ns with
  | nil =>
    intro ms h
    cases ms with
    | nil => rfl
    | cons m ms => cases h
  | cons n ns ih =>
    intro ms h
    cases ms with
    | nil => cases h
    | cons m ms =>
      -- The digits of the first number are all that comes before the next underscore.
      have htail : Nat.toDigits 10 n ++ ns.flatMap ('_' :: Nat.toDigits 10 ·) =
          Nat.toDigits 10 m ++ ms.flatMap ('_' :: Nat.toDigits 10 ·) := (List.cons.inj h).2
      have hfirst := congrArg (List.takeWhile Char.isDigit) htail
      rw [Lexer.takeWhile_append (fun _ => isDigit_of_mem_toDigits) (hstop ns),
        Lexer.takeWhile_append (fun _ => isDigit_of_mem_toDigits) (hstop ms)] at hfirst
      rw [hfirst] at htail
      rw [toDigits_injective hfirst, ih (List.append_cancel_left htail)]

theorem spelled_injective {ns ms : List Nat} (h : spelled ns = spelled ms) : ns = ms := by
  have hne : ∀ n ns, spelled (n :: ns) ≠ [] := by
    intro n ns hnil
    exact Nat.toDigits_ne_nil (List.append_eq_nil_iff.1 hnil).1
  cases ns with
  | nil =>
    cases ms with
    | nil => rfl
    | cons m ms => exact absurd h.symm (hne m ms)
  | cons n ns =>
    cases ms with
    | nil => exact absurd h (hne n ns)
    | cons m ms => exact flatMap_toDigits_injective (congrArg ('_' :: ·) h)

/-- Whether a text starts with a point, so that it is local to a function. -/
def Asm.isLocalName (name : String) : Bool :=
  name.toList.head? == some '.'

namespace Asm.Label

/-- The text of a label up to its numbers. -/
def stem : Label → String
  | returnPoint => ".__return"
  | ifEnd _ => ".__endif_"
  | elseIf _ _ => ".__elseif_"
  | otherwise _ => ".__else_"
  | whileHead _ => ".__while_"
  | whileDone _ => ".__whileend_natural_"
  | whileEnd _ => ".__whileend_"
  | forHead _ => ".__for_"
  | forStep _ => ".__forinc_"
  | forDone _ => ".__forend_natural_"
  | forEnd _ => ".__forend_"
  | literal _ => "__str"
  | named name => name

/-- The numbers in the text of a label. -/
def numbers : Label → List Nat
  | elseIf n i => [n, i]
  | ifEnd n | otherwise n | whileHead n | whileDone n | whileEnd n | forHead n | forStep n
  | forDone n | forEnd n | literal n => [n]
  | returnPoint | named _ => []

/-- Whether a label is given by its name. -/
def isNamed : Label → Bool
  | named _ => true
  | _ => false

/-- The stems of the labels that are not given by name. -/
def stems : List String :=
  [".__return", ".__endif_", ".__elseif_", ".__else_", ".__while_", ".__whileend_natural_",
    ".__whileend_", ".__for_", ".__forinc_", ".__forend_natural_", ".__forend_", "__str"]

/-- The label with the `i`-th stem and some numbers. -/
def ofStem? : Nat → List Nat → Option Label
  | 0, [] => some returnPoint
  | 1, [n] => some (ifEnd n)
  | 2, [n, i] => some (elseIf n i)
  | 3, [n] => some (otherwise n)
  | 4, [n] => some (whileHead n)
  | 5, [n] => some (whileDone n)
  | 6, [n] => some (whileEnd n)
  | 7, [n] => some (forHead n)
  | 8, [n] => some (forStep n)
  | 9, [n] => some (forDone n)
  | 10, [n] => some (forEnd n)
  | 11, [k] => some (literal k)
  | _, _ => none

theorem nodup_stems : stems.Nodup := by decide

theorem exists_ofStem? {l : Label} (h : l.isNamed = false) :
    ∃ i, stems[i]? = some l.stem ∧ ofStem? i l.numbers = some l := by
  cases l with
  | returnPoint => exact ⟨0, rfl, rfl⟩
  | ifEnd => exact ⟨1, rfl, rfl⟩
  | elseIf => exact ⟨2, rfl, rfl⟩
  | otherwise => exact ⟨3, rfl, rfl⟩
  | whileHead => exact ⟨4, rfl, rfl⟩
  | whileDone => exact ⟨5, rfl, rfl⟩
  | whileEnd => exact ⟨6, rfl, rfl⟩
  | forHead => exact ⟨7, rfl, rfl⟩
  | forStep => exact ⟨8, rfl, rfl⟩
  | forDone => exact ⟨9, rfl, rfl⟩
  | forEnd => exact ⟨10, rfl, rfl⟩
  | literal => exact ⟨11, rfl, rfl⟩
  | named => cases h

theorem toList_text (l : Label) : l.text.toList = l.stem.toList ++ spelled l.numbers := by
  have hstring : ∀ s : String, toString s = s := fun _ => rfl
  unfold text stem numbers
  cases l <;> simp [spelled, hstring]

theorem not_isDigit_of_mem_stem {l : Label} (h : l.isNamed = false) :
    ∀ c ∈ l.stem.toList, (!c.isDigit) = true := by
  refine List.all_eq_true.1 ?_
  cases l with
  | named => cases h
  | _ =>
    simp only [stem]
    decide

/-- **The text tells the label.** -/
theorem text_injective {l l' : Label} (hl : l.isNamed = false) (hl' : l'.isNamed = false)
    (h : l.text = l'.text) : l = l' := by
  have hstop : ∀ (ns : List Nat) (d : Char), (spelled ns).head? = some d →
      (!d.isDigit) = false := by
    intro ns d hd
    cases ns with
    | nil => cases hd
    | cons n ns =>
      rw [spelled, List.head?_append_of_ne_nil _ Nat.toDigits_ne_nil] at hd
      rw [isDigit_of_mem_toDigits (List.mem_of_mem_head? hd)]
      rfl
  have hlist : l.stem.toList ++ spelled l.numbers = l'.stem.toList ++ spelled l'.numbers := by
    rw [← toList_text, ← toList_text, h]
  have hstem := congrArg (List.takeWhile (!·.isDigit)) hlist
  rw [Lexer.takeWhile_append (not_isDigit_of_mem_stem hl) (hstop _),
    Lexer.takeWhile_append (not_isDigit_of_mem_stem hl') (hstop _)] at hstem
  rw [hstem] at hlist
  have hnumbers : l.numbers = l'.numbers := spelled_injective (List.append_cancel_left hlist)
  obtain ⟨i, hi, hof⟩ := exists_ofStem? hl
  obtain ⟨i', hi', hof'⟩ := exists_ofStem? hl'
  rw [String.toList_inj.1 hstem] at hi
  have hlt : i < stems.length := (List.getElem?_eq_some_iff.1 hi).1
  obtain rfl : i = i' := (List.getElem?_inj hlt nodup_stems).1 (hi.trans hi'.symm)
  rw [hnumbers, hof'] at hof
  exact (Option.some.inj hof).symm

theorem head?_text {l : Label} (h : l.isNamed = false) :
    l.text.toList.head? = l.stem.toList.head? := by
  rw [toList_text, List.head?_append]
  cases l with
  | named => cases h
  | _ =>
    simp only [stem]
    rfl

theorem isLocalName_text {l : Label} (h : l = .returnPoint ∨ l.number? ≠ none) :
    isLocalName l.text := by
  have hnamed : l.isNamed = false := by
    cases l with
    | named => simp [number?] at h
    | _ => rfl
  unfold isLocalName
  rw [head?_text hnamed]
  cases l with
  | literal | named => simp [number?] at h
  | _ =>
    simp only [stem]
    decide

theorem head?_literal (k : Nat) : (literal k).text.toList.head? = some '_' := by
  rw [head?_text rfl, stem]
  decide

theorem literal_text_ne_memcpy (k : Nat) : (literal k).text ≠ "memcpy" := by
  intro h
  have hhead := head?_literal k
  rw [h] at hhead
  revert hhead
  decide

end Asm.Label

/-! ### The names of functions -/

theorem Grammar.name_mem_of_isProgram {ts : List Token} {p : Program} (h : IsProgram ts p)
    {item : Item} (hitem : item ∈ p.items) {decl : FunctionDecl} {external : Bool}
    (hdecl : item.function? = some (decl, external)) : .name decl.name ∈ ts := by
  have hheader : ∀ {ts} {decl : FunctionDecl}, IsHeader ts decl → .name decl.name ∈ ts := by
    rintro ts decl ⟨⟩
    simp
  obtain ⟨hmany⟩ := h
  induction hmany with
  | nil => cases hitem
  | cons hfirst _ ih =>
    rcases List.mem_cons.1 hitem with rfl | hitem
    · refine List.mem_append_left _ ?_
      cases hfirst with
      | external h =>
        cases hdecl
        simp [hheader h]
      | struct => cases hdecl
      | function h hb =>
        cases hdecl
        have hname := hheader h
        exact List.mem_append_left _ hname
    · exact List.mem_append_right _ (ih hitem)

theorem Program.isLexical_of_source {source : String} {p : Program}
    (h : Program.ofSource source = .ok p) {item : Item} (hitem : item ∈ p.items)
    {decl : FunctionDecl} {external : Bool} (hdecl : item.function? = some (decl, external)) :
    (Token.name decl.name).IsLexical := by
  obtain ⟨tokens, hscan, htokens⟩ := except_bind_eq_ok.1 h
  obtain ⟨ts, hts, heof, hlexical⟩ := Lexer.isLexical_of_scan hscan
  cases tokens with
  | nil => simp at hts
  | cons t tail =>
    have hended : Cursor.Ended ⟨t, tail, false⟩ := ⟨rfl, ts, hts, heof⟩
    unfold ofTokens Cursor.ofList? at htokens
    cases hrun : parser.run ⟨t, tail, false⟩ with
    | error e => simp [hrun, Except.map] at htokens
    | ok r =>
      obtain rfl : r.1 = p := by simpa [hrun, Except.map] using htokens
      obtain ⟨-, us, hus, hprogram⟩ := reads_program hended r.1 r.2 hrun
      have hmem : Token.name decl.name ∈ ts ++ [Token.eof] := by
        rw [← hts]
        refine (hus ▸ List.mem_append_left _ ?_ : _ ∈ Cursor.tokens ⟨t, tail, false⟩)
        exact Grammar.name_mem_of_isProgram hprogram hitem hdecl
      exact hlexical _ (by simpa using hmem)

theorem Token.not_isLocalName {x : String} (h : (Token.name x).IsLexical) :
    isLocalName x = false := by
  obtain ⟨c, cs, hchars, hc, -⟩ := h
  have hne : c ≠ '.' := by
    rintro rfl
    cases hc
  simp [isLocalName, hchars, hne]

/-! ### Tables of functions -/

namespace FunctionTable

/-- Whether no two entries have one name. -/
def Distinct (t : FunctionTable) : Prop :=
  (t.entries.map FunctionSignature.name).Nodup

theorem Distinct.insert {t : FunctionTable} (h : t.Distinct) (s : FunctionSignature) :
    (t.insert s).Distinct := by
  unfold FunctionTable.insert
  split
  · exact h
  · rename_i hnew
    have hnew : ∀ s' ∈ t.entries, s'.name ≠ s.name := by
      simpa [FunctionTable.contains, FunctionTable.find?] using hnew
    unfold Distinct
    rw [List.map_append, List.nodup_append']
    refine ⟨h, List.nodup_singleton _, ?_⟩
    intro x hx hx'
    obtain ⟨s', hs', rfl⟩ := List.mem_map.1 hx
    exact hnew s' hs' (by simpa using hx')

theorem Distinct.find?_of_mem {t : FunctionTable} (h : t.Distinct) {s : FunctionSignature}
    (hs : s ∈ t.entries) : t.find? s.name = some s := by
  obtain ⟨entries⟩ := t
  unfold Distinct at h
  unfold FunctionTable.find?
  induction entries with
  | nil => cases hs
  | cons s' entries ih =>
    obtain ⟨hfirst, hrest⟩ := List.nodup_cons.1 h
    rcases List.mem_cons.1 hs with rfl | hs
    · simp
    · have hne : s'.name ≠ s.name := fun heq => hfirst (heq ▸ List.mem_map_of_mem hs)
      rw [List.find?_cons_of_neg (by simpa using hne)]
      exact ih hrest hs

theorem find?_eq_some_of_get {t : FunctionTable} {f : String} {s : FunctionSignature}
    (h : t.get f = .ok s) : t.find? f = some s := by
  unfold FunctionTable.get at h
  split at h
  · rename_i hfind
    cases h
    exact hfind
  · cases h

theorem mem_of_find? {t : FunctionTable} {f : String} {s : FunctionSignature}
    (h : t.find? f = some s) : s ∈ t.entries ∧ s.name = f :=
  ⟨List.mem_of_find?_eq_some h, by simpa using List.find?_some h⟩

end FunctionTable

namespace Declarations

theorem distinct_addFunctions (structs : StructTable) (items : List Item) :
    ∀ {table : FunctionTable}, table.Distinct → (addFunctions structs table items).1.Distinct := by
  induction items with
  | nil => exact id
  | cons item items ih =>
    intro table h
    rw [addFunctions]
    split
    · exact ih h
    · split
      · exact ih (h.insert _)
      · exact ih h

theorem contains_addFunctions {structs : StructTable} {item : Item} {decl : FunctionDecl}
    {external : Bool} (hdecl : item.function? = some (decl, external)) {items : List Item} :
    ∀ {table : FunctionTable}, (addFunctions structs table items).2 = [] →
      item ∈ items ∨ table.contains decl.name →
      (addFunctions structs table items).1.contains decl.name := by
  induction items with
  | nil =>
    intro table _ h
    exact h.resolve_left List.not_mem_nil
  | cons item' items ih =>
    intro table hread h
    rw [addFunctions] at hread ⊢
    cases hitem : item'.function? with
    | none =>
      simp only [hitem] at hread ⊢
      refine ih hread (h.imp_left fun hmem => ?_)
      rcases List.mem_cons.1 hmem with rfl | hmem
      · cases hdecl.symm.trans hitem
      · exact hmem
    | some q =>
      simp only [hitem] at hread ⊢
      cases hs : q.1.signature structs q.2 with
      | error e =>
        rw [hs] at hread
        cases hread
      | ok s =>
        rw [hs] at hread
        simp only
        refine ih hread ?_
        rw [FunctionTable.contains, FunctionTable.find?_insert]
        rcases h with hmem | hknown
        · rcases List.mem_cons.1 hmem with rfl | hmem
          · obtain rfl := Option.some.inj (hdecl.symm.trans hitem)
            right
            rw [(FunctionDecl.name_of_signature hs).1, if_pos rfl]
            simp
          · exact .inl hmem
        · right
          obtain ⟨s', hs'⟩ := Option.isSome_iff_exists.1 hknown
          simp [hs']

end Declarations

/-! ### Symbols -/

namespace Asm.Listing

/-- The symbols that a listing defines, apart from those that are local to a function. -/
def globals (l : Listing) : List String :=
  l.literals.entries.map (·.2.text) ++
    l.functions.flatMap fun code => (code.labels.map Label.text).filter (!isLocalName ·)

/-- The symbols that a listing imports. -/
def externs (l : Listing) : List String :=
  "memcpy" :: l.imports

end Asm.Listing

theorem LiteralPool.texts_of_entries (pool : LiteralPool) : pool.entries.map (·.2.text) =
    (List.range pool.texts.length).map fun k => (Label.literal k).text := by
  have hindices : pool.texts.zipIdx.map Prod.snd = List.range pool.texts.length := by
    rw [List.zipIdx_map_snd, List.range_eq_range']
  rw [← hindices, entries, List.map_map, List.map_map]
  rfl

theorem FunctionDecl.labels_of_gives {decl : FunctionDecl} {d : Declarations} {code : Code}
    (hw : decl.wellFormed) (h : decl.Gives d code) :
    code.head? = some (.label (.named decl.name)) ∧
      ∃ ls, code.labels = .named decl.name :: ls ∧ ls.Nodup ∧
        ∀ l ∈ ls, l.isNamed = false ∧ isLocalName l.text := by
  obtain ⟨g, g', -, hreturns⟩ := h
  obtain ⟨signature, ctx, raw, σ, -, -, -, rfl, hemits, -, -⟩ := emits_of_returns hw hreturns
  have hnodup := hemits.nodup_labels_frameCode decl.name (ctx.pastAll decl.body).frameSize
  rw [labels_frameCode, Code.labels_resolve] at hnodup ⊢
  refine ⟨rfl, _, rfl, (List.nodup_cons.1 hnodup).2, fun l hl => ?_⟩
  have hnumber : l = .returnPoint ∨ l.number? ≠ none := by
    rcases List.mem_append.1 hl with hl | hl
    · rcases (hemits.numbered (by simp [Phrase.number?])).mem l hl with hown | ⟨k, j, hnumber, -⟩
      · cases hown
      · exact .inr (by simp [hnumber])
    · exact .inl (List.mem_singleton.1 hl)
  refine ⟨?_, Label.isLocalName_text hnumber⟩
  cases l with
  | named => simp [Label.number?] at hnumber
  | _ => rfl

theorem FunctionDecl.filter_labels_of_gives {decl : FunctionDecl} {d : Declarations} {code : Code}
    (hw : decl.wellFormed) (hname : isLocalName decl.name = false) (h : decl.Gives d code) :
    (code.labels.map Label.text).filter (!isLocalName ·) = [decl.name] := by
  obtain ⟨-, ls, hls, -, hlocal⟩ := labels_of_gives hw h
  have htext : (Label.named decl.name).text = decl.name := rfl
  have hrest : (ls.map Label.text).filter (!isLocalName ·) = [] :=
    List.filter_eq_nil_iff.2 (List.forall_mem_map.2 fun l hl => by simp [(hlocal l hl).2])
  rw [hls, List.map_cons, htext, List.filter_cons_of_pos (by simp [hname]), hrest]

theorem FunctionDecl.flatMap_labels_of_gives {d : Declarations} {decls : List FunctionDecl}
    {codes : List Code} (h : List.Forall₂ (FunctionDecl.Gives · d) decls codes)
    (hall : ∀ decl ∈ decls, decl.wellFormed ∧ isLocalName decl.name = false) :
    codes.flatMap (fun code => (code.labels.map Label.text).filter (!isLocalName ·)) =
      decls.map FunctionDecl.name := by
  induction h with
  | nil => rfl
  | cons hgives _ ih =>
    obtain ⟨⟨hw, hname⟩, hrest⟩ := List.forall_mem_cons.1 hall
    rw [List.flatMap_cons, filter_labels_of_gives hw hname hgives, ih hrest]
    rfl

namespace Item

theorem exists_mem_definitions {table : FunctionTable} {decl : FunctionDecl} {items : List Item} :
    ∀ {seen : List String}, .function decl ∈ items → decl.name ∉ seen → table.contains decl.name →
      ∃ decl' ∈ definitions table seen items, decl'.name = decl.name := by
  induction items with
  | nil => exact fun hmem => absurd hmem List.not_mem_nil
  | cons item items ih =>
    intro seen hmem hseen hknown
    cases item with
    | function decl' =>
      rw [definitions]
      by_cases hname : decl'.name = decl.name
      · rw [hname, if_neg (by simpa using hseen), if_neg (by simp [hknown])]
        exact ⟨decl', List.mem_cons_self, hname⟩
      · have hrest : .function decl ∈ items := by
          rcases List.mem_cons.1 hmem with heq | hmem
          · cases heq
            exact absurd rfl hname
          · exact hmem
        have hseen' : decl.name ∉ decl'.name :: seen :=
          List.not_mem_cons_of_ne_of_not_mem (Ne.symm hname) hseen
        split
        · exact ih hrest hseen hknown
        · obtain ⟨decl'', hmem'', hname''⟩ := ih hrest hseen' hknown
          split
          · exact ⟨decl'', hmem'', hname''⟩
          · exact ⟨decl'', List.mem_cons_of_mem _ hmem'', hname''⟩
    | external | struct =>
      refine ih ?_ hseen hknown
      simpa using hmem

theorem wellFormed_of_mem_definitions {source : String} {p : Program} {table : FunctionTable}
    {decl : FunctionDecl} (hp : Program.ofSource source = .ok p)
    (h : decl ∈ definitions table [] p.items) :
    decl.wellFormed ∧ isLocalName decl.name = false := by
  have hitem := (mem_of_mem_definitions h).1
  exact ⟨FunctionDecl.wellFormed_of_source hp hitem,
    Token.not_isLocalName (Program.isLexical_of_source hp hitem rfl)⟩

theorem exists_mem_of_first? {f : String} {items : List Item} {decl : FunctionDecl}
    {external : Bool} (h : first? f items = some (decl, external)) :
    ∃ item ∈ items, item.function? = some (decl, external) :=
  List.mem_filterMap.1 (List.mem_of_find?_eq_some h)

end Item

namespace Generator

variable {source : String} {p : Program} {g : Generator} {listing : Listing}

/-- **What a listing defines:** the literals, in the order of their numbers, and one function for
each definition. -/
theorem globals_eq (hp : Program.ofSource source = .ok p) (h : (g.generate p).1 = .ok listing) :
    listing.globals =
      ((List.range listing.literals.texts.length).map fun k => (Label.literal k).text) ++
      (Item.definitions (Declarations.add {} p).1.functions [] p.items).map FunctionDecl.name := by
  obtain ⟨-, -, hfunctions⟩ := generate_eq_ok h
  unfold Listing.globals
  rw [LiteralPool.texts_of_entries, FunctionDecl.flatMap_labels_of_gives hfunctions]
  exact fun _ => Item.wellFormed_of_mem_definitions hp

/-- A compiled definition is not imported: its name has one entry in the table. -/
theorem notMem_imports_of_mem_definitions (hp : Program.ofSource source = .ok p)
    (h : (g.generate p).1 = .ok listing) {decl : FunctionDecl}
    (hdecl : decl ∈ Item.definitions (Declarations.add {} p).1.functions [] p.items) :
    decl.name ∉ listing.imports := by
  obtain ⟨-, himports, hfunctions⟩ := generate_eq_ok h
  obtain ⟨code, -, g₁, g₂, hd, hreturns⟩ := (exists_mem_of_forall₂ hfunctions).1 decl hdecl
  have hw := (Item.wellFormed_of_mem_definitions hp hdecl).1
  obtain ⟨signature, -, -, -, hget, hexternal, -⟩ := FunctionDecl.emits_of_returns hw hreturns
  rw [hd] at hget
  have hfind := FunctionTable.find?_eq_some_of_get hget
  intro hmem
  rw [himports] at hmem
  obtain ⟨s, hs, hname⟩ := List.mem_map.1 (List.mem_filter.1 hmem).1
  obtain ⟨hentry, hs⟩ := List.mem_filter.1 hs
  have hdistinct : (Declarations.add {} p).1.functions.Distinct :=
    Declarations.distinct_addFunctions _ _ List.nodup_nil
  have hsame := hdistinct.find?_of_mem hentry
  rw [hname, hfind] at hsame
  cases hsame
  rw [hexternal] at hs
  cases hs

/-- A function that the declarations know is imported by the listing, or defined by the declaration
from which its signature has been read. -/
theorem mem_externs_or_mem_definitions (h : (g.generate p).1 = .ok listing) {f : String}
    {s : FunctionSignature} (hs : (Declarations.add {} p).1.functions.find? f = some s) :
    (s.external ∧ f ∈ listing.externs) ∨ (s.external = false ∧
      ∃ decl ∈ Item.definitions (Declarations.add {} p).1.functions [] p.items,
        decl.name = f ∧ decl.signature (Declarations.add {} p).1.structs false = .ok s) := by
  obtain ⟨hread, himports, -⟩ := generate_eq_ok h
  have hread := (List.append_eq_nil_iff.1 hread).2
  cases hexternal : s.external with
  | true =>
    refine .inl ⟨rfl, ?_⟩
    unfold Listing.externs
    by_cases hmemcpy : f = "memcpy"
    · rw [hmemcpy]
      exact List.mem_cons_self
    · obtain ⟨hentry, hname⟩ := FunctionTable.mem_of_find? hs
      refine List.mem_cons_of_mem _ ?_
      rw [himports]
      have hname : f ∈ (Declarations.add {} p).1.functions.externals.map (·.name) :=
        List.mem_map.2 ⟨s, List.mem_filter.2 ⟨hentry, hexternal⟩, hname⟩
      exact List.mem_filter.2 ⟨hname, by simpa using hmemcpy⟩
  | false =>
    refine .inr ⟨rfl, ?_⟩
    rcases Declarations.find?_addFunctions hread hs with
      hnone | ⟨-, decl, external, hfirst, rfl, hsignature⟩
    · cases hnone
    · obtain rfl : external = false :=
        (FunctionDecl.name_of_signature hsignature).2.symm.trans hexternal
      have hknown : (Declarations.add {} p).1.functions.contains decl.name :=
        Option.isSome_iff_exists.2 ⟨s, hs⟩
      exact ⟨decl, Item.mem_definitions_of_first? hfirst List.not_mem_nil hknown, rfl, hsignature⟩

theorem name_mem_of_function? (h : (g.generate p).1 = .ok listing) {item : Item}
    (hitem : item ∈ p.items) {decl : FunctionDecl} {external : Bool}
    (hdecl : item.function? = some (decl, external)) :
    decl.name ∈ listing.externs ∨
      ∃ decl' ∈ Item.definitions (Declarations.add {} p).1.functions [] p.items,
        decl'.name = decl.name := by
  have hread := (List.append_eq_nil_iff.1 (generate_eq_ok h).1).2
  have hcontains := Declarations.contains_addFunctions hdecl hread (.inl hitem)
  obtain ⟨s, hs⟩ := Option.isSome_iff_exists.1 hcontains
  rcases mem_externs_or_mem_definitions h hs with ⟨-, hmem⟩ | ⟨-, decl', hdecl', hname, -⟩
  · exact .inl hmem
  · exact .inr ⟨decl', hdecl', hname⟩

theorem exists_function?_of_find? (h : (g.generate p).1 = .ok listing) {f : String}
    {s : FunctionSignature} (hs : (Declarations.add {} p).1.functions.find? f = some s) :
    ∃ item ∈ p.items, ∃ decl external, item.function? = some (decl, external) ∧ decl.name = f := by
  have hread := (List.append_eq_nil_iff.1 (generate_eq_ok h).1).2
  rcases Declarations.find?_addFunctions hread hs with
    hnone | ⟨-, decl, external, hfirst, hname, -⟩
  · cases hnone
  · obtain ⟨item, hitem, hdecl⟩ := Item.exists_mem_of_first? hfirst
    exact ⟨item, hitem, decl, external, hdecl, hname⟩

theorem exists_function?_of_mem_imports (h : (g.generate p).1 = .ok listing) {f : String}
    (hf : f ∈ listing.imports) :
    ∃ item ∈ p.items, ∃ decl external, item.function? = some (decl, external) ∧ decl.name = f := by
  obtain ⟨-, himports, -⟩ := generate_eq_ok h
  rw [himports] at hf
  obtain ⟨s, hs, hname⟩ := List.mem_map.1 (List.mem_filter.1 hf).1
  have hentry := (List.mem_filter.1 hs).1
  have hdistinct : (Declarations.add {} p).1.functions.Distinct :=
    Declarations.distinct_addFunctions _ _ List.nodup_nil
  have hfind := hdistinct.find?_of_mem hentry
  rw [hname] at hfind
  exact exists_function?_of_find? h hfind

/-- **When the symbols of a listing are distinct.** No symbol is defined twice, and none is both
defined and imported, exactly if no function that the program defines is called `memcpy`, and no
function that it declares is called like a literal. All other names are kept apart. -/
theorem distinct_symbols_iff (hp : Program.ofSource source = .ok p)
    (h : (g.generate p).1 = .ok listing) :
    listing.globals.Nodup ∧ listing.globals.Disjoint listing.externs ↔
      (∀ decl, .function decl ∈ p.items → decl.name ≠ "memcpy") ∧
      ∀ item ∈ p.items, ∀ decl external, item.function? = some (decl, external) →
        ∀ k < listing.literals.texts.length, decl.name ≠ (Label.literal k).text := by
  have hliteral : ∀ {k}, k < listing.literals.texts.length → (Label.literal k).text ∈
      (List.range listing.literals.texts.length).map fun k => (Label.literal k).text :=
    fun hk => List.mem_map.2 ⟨_, List.mem_range.2 hk, rfl⟩
  rw [globals_eq hp h, List.nodup_append', List.disjoint_append_left]
  constructor
  · rintro ⟨⟨-, -, hapart⟩, hliterals, hnames⟩
    refine ⟨fun decl hitem hmemcpy => ?_, fun item hitem decl external hdecl k hk heq => ?_⟩
    · have hread := (List.append_eq_nil_iff.1 (generate_eq_ok h).1).2
      obtain ⟨decl', hmem, hname⟩ := Item.exists_mem_definitions hitem List.not_mem_nil
        (Declarations.contains_addFunctions rfl hread (.inl hitem))
      refine hnames (List.mem_map.2 ⟨decl', hmem, hname⟩) ?_
      rw [hmemcpy]
      exact List.mem_cons_self
    · rcases name_mem_of_function? h hitem hdecl with hextern | ⟨decl', hmem, hname⟩
      · exact hliterals (hliteral hk) (heq ▸ hextern)
      · exact hapart (hliteral hk) (List.mem_map.2 ⟨decl', hmem, hname.trans heq⟩)
  · rintro ⟨hmemcpy, hfree⟩
    refine ⟨⟨?_, Item.nodup_definitions _ _, ?_⟩, ?_, ?_⟩
    · refine (List.nodup_map_iff_inj_on List.nodup_range).2 fun k _ k' _ heq => ?_
      exact Label.literal.inj (Label.text_injective rfl rfl heq)
    · intro x hx hx'
      obtain ⟨k, hk, rfl⟩ := List.mem_map.1 hx
      obtain ⟨decl, hdecl, hname⟩ := List.mem_map.1 hx'
      have hitem := (Item.mem_of_mem_definitions hdecl).1
      exact hfree _ hitem decl false rfl k (List.mem_range.1 hk) hname
    · intro x hx hx'
      obtain ⟨k, hk, rfl⟩ := List.mem_map.1 hx
      rcases List.mem_cons.1 hx' with heq | hmem
      · exact Label.literal_text_ne_memcpy k heq
      · obtain ⟨item, hitem, decl, external, hdecl, hname⟩ := exists_function?_of_mem_imports h hmem
        exact hfree item hitem decl external hdecl k (List.mem_range.1 hk) hname
    · intro x hx hx'
      obtain ⟨decl, hdecl, rfl⟩ := List.mem_map.1 hx
      rcases List.mem_cons.1 hx' with heq | hmem
      · exact hmemcpy decl (Item.mem_of_mem_definitions hdecl).1 heq
      · exact notMem_imports_of_mem_definitions hp h hdecl hmem

/-- Two functions, an imported one and two literals. -/
theorem distinct_symbols_of_greeting : ∃ p listing,
    Program.ofSource r#"extern fn puts(s: u8*) -> i32;
      fn greet(s: u8*) { puts(s); puts("!"); } fn main() { greet("a"); }"# = .ok p ∧
    (Generator.generate {} p).1 = .ok listing ∧
    listing.globals = ["__str0", "__str1", "greet", "main"] ∧
    listing.externs = ["memcpy", "puts"] ∧
    listing.globals.Nodup ∧ listing.globals.Disjoint listing.externs ∧
    ∀ decl, .function decl ∈ p.items → decl.name ≠ "memcpy" := by
  obtain ⟨p, listing, hp, h, hcheck⟩ := exists_of_someListing
    r#"extern fn puts(s: u8*) -> i32;
      fn greet(s: u8*) { puts(s); puts("!"); } fn main() { greet("a"); }"#
    (fun listing => listing.globals == ["__str0", "__str1", "greet", "main"] &&
      listing.externs == ["memcpy", "puts"])
    (by decide +kernel)
  obtain ⟨hglobals, hexterns⟩ := Bool.and_eq_true_iff.1 hcheck
  have hglobals := eq_of_beq hglobals
  have hexterns := eq_of_beq hexterns
  have hdistinct : listing.globals.Nodup ∧ listing.globals.Disjoint listing.externs := by
    rw [hglobals, hexterns]
    exact ⟨by decide, by simp [List.disjoint_left]⟩
  exact ⟨p, listing, hp, h, hglobals, hexterns, hdistinct.1, hdistinct.2,
    ((distinct_symbols_iff hp h).1 hdistinct).1⟩

/-- A function called `memcpy` is defined, though the listing imports it. -/
theorem memcpy_defined_and_imported : ∃ p listing, Program.ofSource "fn memcpy() { }" = .ok p ∧
    (Generator.generate {} p).1 = .ok listing ∧ "memcpy" ∈ listing.globals ∧
    "memcpy" ∈ listing.externs := by
  obtain ⟨p, listing, hp, h, hcheck⟩ := exists_of_someListing "fn memcpy() { }"
    (fun listing => listing.globals.contains "memcpy") (by decide +kernel)
  exact ⟨p, listing, hp, h, List.contains_iff_mem.1 hcheck, List.mem_cons_self⟩

end Generator

end GLang
