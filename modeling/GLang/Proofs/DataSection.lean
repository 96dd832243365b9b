import GLang.Proofs.Callees
import GLang.Proofs.Lines
import GLang.Proofs.LiteralData

/-!
# The lines of the data section

The data section has one entry for each string literal. An entry is meant to be a line, but the
characters of a literal stand in it as they are, and a literal may hold a line feed: the lexer
refuses one unless a backslash stands before it, and then the backslash is dropped.

* `Literal.count_operands`: an entry has the line feeds of its literal,
* `Asm.Listing.text_eq`: a listing is written line by line, apart from its entries,
* `Generator.isLexical_of_name?`: the names in code are words, so that it has no line feeds,
* `one_line_per_literal_iff`: so there is one line for each literal exactly if no literal has a line
  feed.
-/

namespace GLang

open Asm

/-! ### Literals -/

namespace Literal

theorem count_units (cs : List Char) :
    ((units cs).filterMap Sum.getLeft?).count '\n' = cs.count '\n' := by
  fun_induction units cs with
  | case1 => rfl
  | case2 => rfl
  | case3 c cs n hn ih =>
    have hc : c ≠ '\n' := by
      rintro rfl
      cases hn
    rw [List.filterMap_cons_none rfl, ih]
    simp [hc]
  | case4 c cs hn ih => simp [List.count_cons, ih]
  | case5 c cs _ _ n hn ih =>
    have hc : c ≠ '\n' := by
      rintro rfl
      cases hn
    rw [List.filterMap_cons_none rfl, ih]
    simp [hc]
  | case6 c cs _ _ hn ih => simp [List.count_cons, ih]

theorem hexDigit_ne (n : Nat) : hexDigit n ≠ '\n' := by
  intro h
  have hnat := congrArg Char.toNat h
  unfold hexDigit at hnat
  have hzero : '0'.toNat = 48 := rfl
  have hA : 'A'.toNat = 65 := rfl
  have hfeed : '\n'.toNat = 10 := rfl
  split at hnat
  · rw [Char.toNat_ofNat] at hnat
    split at hnat <;> omega
  · rw [Char.toNat_ofNat] at hnat
    split at hnat <;> omega

theorem newline_notMem_byteText (n : Nat) : '\n' ∉ (byteText n).toList := by
  have hdigit := fun n => (hexDigit_ne n).symm
  unfold byteText
  split <;> simp [hdigit]

theorem count_run (cs : List Char) : (Datum.run cs).text.toList.count '\n' = cs.count '\n' := by
  simp [Datum.text]

theorem count_gather (us : List (Char ⊕ Nat)) :
    ((gather us).flatMap fun d => d.text.toList).count '\n' =
      (us.filterMap Sum.getLeft?).count '\n' := by
  fun_induction gather us with
  | case1 => rfl
  | case2 n us ih =>
    have hbyte : (Datum.byte n).text.toList.count '\n' = 0 :=
      List.count_eq_zero.2 (newline_notMem_byteText n)
    rw [List.flatMap_cons, List.count_append, ih, hbyte, List.filterMap_cons_none rfl, Nat.zero_add]
  | case3 c us cs more hmore ih =>
    have hleft : Sum.getLeft? (.inl c : Char ⊕ Nat) = some c := rfl
    rw [hmore, List.flatMap_cons, List.count_append, count_run] at ih
    rw [List.flatMap_cons, List.count_append, count_run, List.filterMap_cons_some hleft,
      List.count_cons, List.count_cons, ← ih]
    omega
  | case4 c us _ ih =>
    have hleft : Sum.getLeft? (.inl c : Char ⊕ Nat) = some c := rfl
    rw [List.flatMap_cons, List.count_append, count_run, List.filterMap_cons_some hleft,
      List.count_cons, List.count_cons, ih, List.count_nil]
    omega

theorem operands_eq (raw : String) :
    operands raw = String.join ((data raw).map fun d => d.text ++ ", ") ++ "0" := by
  unfold operands
  induction data raw with
  | nil => rfl
  | cons d ds ih =>
    rw [List.map_cons, List.cons_append, String.intercalate_cons_of_ne_nil (by simp), ih,
      List.map_cons, String.join_cons]
    simp only [String.append_assoc]

/-- **An entry has the line feeds of its literal.** -/
theorem count_operands (raw : String) :
    (operands raw).toList.count '\n' = raw.toList.count '\n' := by
  have hjoin : ∀ ds : List Datum, (String.join (ds.map fun d => d.text ++ ", ")).toList.count '\n' =
      (ds.flatMap fun d => d.text.toList).count '\n' := by
    intro ds
    induction ds with
    | nil => rfl
    | cons d ds ih =>
      rw [List.map_cons, String.join_cons, String.toList_append, String.toList_append,
        List.count_append, List.count_append, ih, List.flatMap_cons, List.count_append]
      rfl
  rw [operands_eq, String.toList_append, List.count_append, hjoin, data, count_gather, count_units]
  rfl

theorem getLast?_operands (raw : String) : (operands raw).toList.getLast? = some '0' := by
  rw [operands_eq, String.toList_append, List.getLast?_append]
  rfl

end Literal

/-! ### Listings -/

namespace Asm

/-- A line of code without its end. -/
def Line.body : Line → String
  | label l => l.text ++ ":"
  | instr i => "    " ++ i.text
  | cleanup marker => "    " ++ markerText marker
  | verbatim text => text

theorem Code.text_eq_unlines {code : Code} (h : ∀ text, .verbatim text ∉ code) :
    code.text = Text.unlines (code.map Line.body) := by
  unfold text Text.unlines
  rw [List.map_map]
  refine congrArg String.join (List.map_congr_left fun line hline => ?_)
  cases line with
  | label l => simp [Line.text, Line.body, String.append_assoc]
  | instr | cleanup => rfl
  | verbatim text => exact absurd hline (h text)

namespace Listing

/-- The lines before the data section. -/
def header (l : Listing) : List String :=
  ["BITS 32", "global main", "extern memcpy"] ++ l.imports.map ("extern " ++ ·)

/-- What the data section has for each literal. -/
def dataEntries (l : Listing) : List String :=
  l.literals.entries.map fun entry => entry.2.text ++ ": db " ++ Literal.operands entry.1

/-- The lines of the text section, with an empty one before each function. -/
def codeLines (l : Listing) : List String :=
  l.functions.flatMap fun code => "" :: code.map Line.body

/-- **A listing is written line by line,** if no code has been patched as text. -/
theorem text_eq {l : Listing} (h : ∀ code ∈ l.functions, ∀ text, .verbatim text ∉ code) :
    l.text = Text.unlines
      (l.header ++ ["section .data"] ++ l.dataEntries ++ ["section .text"] ++ l.codeLines) := by
  have himports : String.join (l.imports.map fun name => s!"extern {name}\n") =
      Text.unlines (l.imports.map ("extern " ++ ·)) := by
    unfold Text.unlines
    rw [List.map_map]
    rfl
  have hentries : String.join (l.literals.entries.map fun entry => dataLine entry.1 entry.2) =
      Text.unlines l.dataEntries := by
    unfold Text.unlines dataEntries
    rw [List.map_map]
    rfl
  have hcode : ∀ codes : List Code, (∀ code ∈ codes, ∀ text, .verbatim text ∉ code) →
      String.join (codes.map fun code => "\n" ++ code.text) =
        Text.unlines (codes.flatMap fun code => "" :: code.map Line.body) := by
    intro codes
    induction codes with
    | nil => exact fun _ => rfl
    | cons code codes ih =>
      intro hall
      obtain ⟨hcode, hcodes⟩ := List.forall_mem_cons.1 hall
      rw [List.map_cons, String.join_cons, ih hcodes, Code.text_eq_unlines hcode, List.flatMap_cons,
        Text.unlines_append, Text.unlines_cons, String.empty_append]
  have htext : l.text = Text.unlines ["BITS 32", "global main", "extern memcpy"] ++
      String.join (l.imports.map fun name => s!"extern {name}\n") ++
      Text.unlines ["section .data"] ++
      String.join (l.literals.entries.map fun entry => dataLine entry.1 entry.2) ++
      Text.unlines ["section .text"] ++
      String.join (l.functions.map fun code => "\n" ++ code.text) := by
    rfl
  rw [htext, himports, hentries, hcode _ h, header, codeLines]
  simp only [Text.unlines_append]

end Listing

end Asm

/-! ### Names in code -/

theorem Token.mark_notMem {x : String} (h : (Token.name x).IsLexical) {c : Char} (hc : IsMark c) :
    c ∉ x.toList := by
  obtain ⟨d, cs, hchars, hd, hcs, -⟩ := h
  rw [hchars]
  intro hmem
  rcases List.mem_cons.1 hmem with rfl | hmem
  · rcases hc with rfl | rfl | rfl <;> exact absurd hd (by decide)
  · have hcontinues := hcs c hmem
    rcases hc with rfl | rfl | rfl <;> exact absurd hcontinues (by decide)

theorem Asm.Code.Pushes.exists_literal {code : Code} {pool : LiteralPool}
    {raws strings : List String} (h : code.Pushes pool raws) (hpool : pool.Numbers strings)
    {l : Label} (hl : .instr (.pushLabel l) ∈ code) : ∃ k, l = .literal k := by
  have hmem : (.ok l : Except LoweringError Label) ∈ (code.filterMap Line.pushed?).map .ok :=
    List.mem_map.2 ⟨l, List.mem_filterMap.2 ⟨_, hl, rfl⟩, rfl⟩
  rw [h] at hmem
  obtain ⟨raw, -, hraw⟩ := List.mem_map.1 hmem
  obtain ⟨k, hk, -⟩ := (hpool.label_iff raw l).1 hraw
  exact ⟨k, hk⟩

namespace Generator

variable {source : String} {p : Program} {g : Generator} {listing : Listing}

theorem isLexical_of_find? (hp : Program.ofSource source = .ok p)
    (h : (g.generate p).1 = .ok listing) {f : String} {s : FunctionSignature}
    (hs : (Declarations.add {} p).1.functions.find? f = some s) : (Token.name f).IsLexical := by
  obtain ⟨item, hitem, decl, external, hdecl, rfl⟩ := exists_function?_of_find? h hs
  exact Program.isLexical_of_source hp hitem hdecl

theorem exists_gives_of_mem (hp : Program.ofSource source = .ok p)
    (h : (g.generate p).1 = .ok listing) {code : Code} (hcode : code ∈ listing.functions) :
    ∃ decl : FunctionDecl, decl.wellFormed ∧ (Token.name decl.name).IsLexical ∧
      decl.Gives (Declarations.add {} p).1 code ∧ code.WellLabelled := by
  obtain ⟨-, -, hfunctions⟩ := generate_eq_ok h
  obtain ⟨decl, hdecl, hgives⟩ := (exists_mem_of_forall₂ hfunctions).2 code hcode
  obtain ⟨hw, hname⟩ := Item.wellFormed_of_mem_definitions hp hdecl
  exact ⟨decl, hw, Program.isLexical_of_source hp (Item.mem_of_mem_definitions hdecl).1 rfl, hgives,
    (FunctionDecl.wellLabelled_of_gives hw hname hgives).1⟩

theorem verbatim_notMem (hp : Program.ofSource source = .ok p)
    (h : (g.generate p).1 = .ok listing) :
    ∀ code ∈ listing.functions, ∀ text, .verbatim text ∉ code := by
  intro code hcode text htext
  obtain ⟨-, -, -, -, hlabelled⟩ := exists_gives_of_mem hp h hcode
  rcases hlabelled.lines _ htext with ⟨l, hl⟩ | ⟨i, hi⟩
  · cases hl
  · cases hi

/-- **The names in the code of a program are words.** -/
theorem isLexical_of_name? (hp : Program.ofSource source = .ok p)
    (h : (g.generate p).1 = .ok listing) {code : Code} (hcode : code ∈ listing.functions) :
    (∀ l, .label l ∈ code → ∀ name ∈ l.name?, (Token.name name).IsLexical) ∧
      ∀ i, .instr i ∈ code → ∀ name ∈ i.name?, (Token.name name).IsLexical := by
  obtain ⟨decl, hw, hlexical, hgives, hlabelled⟩ := exists_gives_of_mem hp h hcode
  -- Apart from the name of the function its labels have no names, and it jumps to these only.
  have hlabels : ∀ l ∈ code.labels, ∀ name ∈ l.name?, (Token.name name).IsLexical := by
    obtain ⟨-, ls, hls, -, hlocal⟩ := FunctionDecl.labels_of_gives hw hgives
    rw [hls]
    refine List.forall_mem_cons.2 ⟨?_, fun l hl name hname => ?_⟩
    · simpa [Label.name?] using hlexical
    · have hnamed := (hlocal l hl).1
      cases l with
      | named => cases hnamed
      | _ => cases hname
  refine ⟨fun l hl => hlabels l (List.mem_filterMap.2 ⟨_, hl, rfl⟩), fun i hi => ?_⟩
  cases i with
  | jump l => exact hlabels l (hlabelled.jumps _ hi l rfl).2
  | jumpZero l => exact hlabels l (hlabelled.jumps _ hi l rfl).2
  | jumpEqual l => exact hlabels l (hlabelled.jumps _ hi l rfl).2
  | pushLabel l =>
    rcases FunctionDecl.writes_of_gives hgives with ⟨text, htext⟩ | hpushes
    · exact absurd htext (verbatim_notMem hp h code hcode text)
    · obtain ⟨k, rfl⟩ := hpushes.exists_literal (LiteralPool.numbers_internAll p.strings) hi
      intro name hname
      cases hname
  | call f =>
    obtain ⟨g₁, g₂, hd, hreturns⟩ := hgives
    obtain ⟨es, -, hspells⟩ := FunctionDecl.spells_of_returns hw hreturns
    rw [hd] at hspells
    intro name hname
    obtain rfl : f = name := Option.some.inj hname
    rcases hspells.sited.declared hi with rfl | ⟨s, hs⟩
    · exact ⟨'m', ['e', 'm', 'c', 'p', 'y'], rfl, by decide, List.all_eq_true.1 (by decide),
        by decide +kernel⟩
    · exact isLexical_of_find? hp h (FunctionTable.find?_eq_some_of_get hs)
  | _ =>
    intro name hname
    cases hname

end Generator

/-! ### The lines of a listing -/

theorem Text.IsLine.of_marks {l : String} (h : ∀ c, IsMark c → c ∉ l.toList) : IsLine l :=
  ⟨h _ (.inr (.inl rfl)), fun hlast => h _ (.inr (.inr rfl)) (List.mem_of_getLast? hlast)⟩

/-- A line that neither begins nor ends the data section. -/
structure Asm.Listing.IsInner (l : String) : Prop extends Text.IsLine l where
  ne_data : l ≠ "section .data"
  ne_text : l ≠ "section .text"

theorem Asm.Listing.IsInner.of_marks {l : String} (h : ∀ c, IsMark c → c ∉ l.toList)
    (hends : l.toList.head? ≠ some 's' ∨ l.toList.getLast? = some ':') : IsInner l := by
  refine ⟨.of_marks h, ?_, ?_⟩
  · rintro rfl
    exact absurd hends (by decide +kernel)
  · rintro rfl
    exact absurd hends (by decide +kernel)

namespace Generator

variable {source : String} {p : Program} {g : Generator} {listing : Listing}

theorem isInner_of_mem_header (hp : Program.ofSource source = .ok p)
    (h : (g.generate p).1 = .ok listing) : ∀ l ∈ listing.header, Listing.IsInner l := by
  refine List.forall_mem_append.2 ⟨fun l hl => ?_, List.forall_mem_map.2 fun f hf => ?_⟩
  · simp only [List.mem_cons, List.not_mem_nil, or_false] at hl
    refine .of_marks (fun c hc => ?_) (.inl ?_)
    · rcases hl with rfl | rfl | rfl <;> rcases hc with rfl | rfl | rfl <;> decide +kernel
    · rcases hl with rfl | rfl | rfl <;> decide +kernel
  · obtain ⟨item, hitem, decl, external, hdecl, rfl⟩ := exists_function?_of_mem_imports h hf
    have hlexical := Program.isLexical_of_source hp hitem hdecl
    refine .of_marks (fun c hc => ?_) (.inl (by simp))
    have hname := Token.mark_notMem hlexical hc
    rcases hc with rfl | rfl | rfl <;> simp [hname]

theorem isInner_of_mem_codeLines (hp : Program.ofSource source = .ok p)
    (h : (g.generate p).1 = .ok listing) : ∀ l ∈ listing.codeLines, Listing.IsInner l := by
  intro l hl
  obtain ⟨code, hcode, hl⟩ := List.mem_flatMap.1 hl
  obtain ⟨-, -, -, -, hlabelled⟩ := exists_gives_of_mem hp h hcode
  obtain ⟨hlabels, hinstrs⟩ := isLexical_of_name? hp h hcode
  rcases List.mem_cons.1 hl with rfl | hl
  · exact .of_marks (fun _ _ => List.not_mem_nil) (.inl (by simp))
  · obtain ⟨line, hline, rfl⟩ := List.mem_map.1 hl
    rcases hlabelled.lines line hline with ⟨label, rfl⟩ | ⟨i, rfl⟩
    · refine .of_marks (fun c hc => ?_) (.inr (by simp [Line.body]))
      have htext : c ∉ label.text.toList := hc.notMem_label fun name hname =>
        Token.mark_notMem (hlabels label hline name hname) hc
      rcases hc with rfl | rfl | rfl <;> simp [Line.body, htext]
    · refine .of_marks (fun c hc => ?_) (.inl (by simp [Line.body]))
      have htext : c ∉ i.text.toList := hc.notMem_instr fun name hname =>
        Token.mark_notMem (hinstrs i hline name hname) hc
      rcases hc with rfl | rfl | rfl <;> simp [Line.body, htext]

/-- **The lines of a listing.** Only the entries of the data section may take several. -/
theorem lines_text (hp : Program.ofSource source = .ok p) (h : (g.generate p).1 = .ok listing) :
    Text.lines listing.text = listing.header ++ "section .data" ::
      ((listing.dataEntries.flatMap fun l => Text.lines (l ++ "\n")) ++
        "section .text" :: listing.codeLines) := by
  have hheader := Text.flatMap_lines fun l hl => (isInner_of_mem_header hp h l hl).toIsLine
  have hcode := Text.flatMap_lines fun l hl => (isInner_of_mem_codeLines hp h l hl).toIsLine
  have hdata : Text.lines ("section .data" ++ "\n") = ["section .data"] := by decide +kernel
  have htext : Text.lines ("section .text" ++ "\n") = ["section .text"] := by decide +kernel
  rw [Listing.text_eq (verbatim_notMem hp h), Text.lines_unlines]
  simp only [List.flatMap_append, List.flatMap_cons, hheader, hcode, hdata, htext,
    List.append_assoc, List.cons_append, List.nil_append]

end Generator

/-! ### The data section -/

namespace Asm.Listing

variable {listing : Listing}

theorem getElem?_dataEntries (k : Nat) : listing.dataEntries[k]? =
    (listing.literals.texts[k]?).map fun raw => s!"__str{k}: db " ++ Literal.operands raw := by
  have htext : (Label.literal k).text ++ ": db " = s!"__str{k}: db " := rfl
  cases hraw : listing.literals.texts[k]? <;>
    simp [dataEntries, LiteralPool.entries, List.getElem?_zipIdx, hraw, htext]

theorem length_dataEntries : listing.dataEntries.length = listing.literals.texts.length := by
  simp [dataEntries, LiteralPool.entries]

theorem newline_mem_entry (k : Nat) (raw : String) :
    '\n' ∈ (s!"__str{k}: db " ++ Literal.operands raw).toList ↔ '\n' ∈ raw.toList := by
  have hmark : IsMark '\n' := .inr (.inl rfl)
  have hlabel : '\n' ∉ (Label.literal k).text.toList := hmark.notMem_label (by simp [Label.name?])
  have htext : s!"__str{k}: db " = (Label.literal k).text ++ ": db " := rfl
  rw [htext, String.toList_append, String.toList_append, List.mem_append, List.mem_append,
    ← List.count_pos_iff (l := (Literal.operands raw).toList), Literal.count_operands,
    List.count_pos_iff]
  simp [hlabel]

theorem mem_dataEntries {l : String} : l ∈ listing.dataEntries ↔
    ∃ (k : Nat) (raw : String), listing.literals.texts[k]? = some raw ∧
      s!"__str{k}: db " ++ Literal.operands raw = l := by
  simp only [List.mem_iff_getElem?, getElem?_dataEntries, Option.map_eq_some_iff]

theorem isInner_of_mem_dataEntries {l : String} (hl : l ∈ listing.dataEntries)
    (hfeed : '\n' ∉ l.toList) : IsInner l := by
  obtain ⟨k, raw, -, rfl⟩ := mem_dataEntries.1 hl
  have hlast : (s!"__str{k}: db " ++ Literal.operands raw).toList.getLast? = some '0' := by
    rw [String.toList_append, List.getLast?_append, Literal.getLast?_operands]
    rfl
  have hhead : (s!"__str{k}: db " ++ Literal.operands raw).toList.head? = some '_' := by
    simp [toString]
  refine ⟨⟨hfeed, by rw [hlast]; decide⟩, ?_, ?_⟩
  · intro heq
    rw [heq] at hhead
    exact absurd hhead (by decide +kernel)
  · intro heq
    rw [heq] at hhead
    exact absurd hhead (by decide +kernel)

theorem forall_dataEntries :
    (∀ l ∈ listing.dataEntries, '\n' ∉ l.toList) ↔
      ∀ raw ∈ listing.literals.texts, '\n' ∉ raw.toList := by
  constructor
  · intro hall raw hraw
    obtain ⟨k, hk⟩ := List.mem_iff_getElem?.1 hraw
    have hentry := hall _ (mem_dataEntries.2 ⟨k, raw, hk, rfl⟩)
    rwa [newline_mem_entry] at hentry
  · intro hall l hl
    obtain ⟨k, raw, hk, rfl⟩ := mem_dataEntries.1 hl
    rw [newline_mem_entry]
    exact hall raw (List.mem_of_getElem? hk)

end Asm.Listing

/-- The lines `part` of a text stand between the lines `section .data` and `section .text`. -/
def DataPart (text : String) (part : List String) : Prop :=
  ∃ before after, Text.lines text =
    before ++ "section .data" :: (part ++ "section .text" :: after)

theorem eq_of_dataPart {source : String} {p : Program} {g : Generator} {listing : Listing}
    (hp : Program.ofSource source = .ok p) (h : (g.generate p).1 = .ok listing)
    (hfeed : ∀ l ∈ listing.dataEntries, '\n' ∉ l.toList) {part : List String}
    (hpart : DataPart listing.text part) : part = listing.dataEntries := by
  obtain ⟨before, after, hsplit⟩ := hpart
  have hinner := fun l hl => Listing.isInner_of_mem_dataEntries hl (hfeed l hl)
  have hcode := Generator.isInner_of_mem_codeLines hp h
  rw [Generator.lines_text hp h, Text.flatMap_lines fun l hl => (hinner l hl).toIsLine] at hsplit
  have hheader : "section .data" ∉ listing.header := fun hmem =>
    (Generator.isInner_of_mem_header hp h _ hmem).ne_data rfl
  have hrest : "section .data" ∉ listing.dataEntries ++ "section .text" :: listing.codeLines := by
    intro hmem
    rcases List.mem_append.1 hmem with hmem | hmem
    · exact (hinner _ hmem).ne_data rfl
    · rcases List.mem_cons.1 hmem with heq | hmem
      · exact absurd heq (by decide)
      · exact (hcode _ hmem).ne_data rfl
  obtain ⟨-, -, hsplit⟩ := (List.append_cons_inj_of_notMem hheader hrest).1 hsplit
  exact ((List.append_cons_inj_of_notMem (fun hmem => (hinner _ hmem).ne_text rfl)
    fun hmem => (hcode _ hmem).ne_text rfl).1 hsplit).1.symm

theorem compile_eq_ok {source text : String} : compile source = .ok text ↔
    ∃ p listing, Program.ofSource source = .ok p ∧ (Generator.generate {} p).1 = .ok listing ∧
      listing.text = text := by
  unfold compile Program.assembly
  cases Program.ofSource source with
  | error e => simp [Except.mapError, bind, Except.bind]
  | ok p =>
    cases hg : (Generator.generate {} p).1 with
    | error ds => simp [Except.mapError, Except.map, bind, Except.bind, Generator.assemble_eq, hg]
    | ok listing => simp [Except.mapError, Except.map, bind, Except.bind, Generator.assemble_eq, hg]

/-- **One line for each literal.** In the text of a program that compiles there are lines between
`section .data` and `section .text`. They are one for each distinct literal, and the `k`-th starts
with `__strk: db`, exactly if no literal of the program has a line feed. -/
theorem one_line_per_literal_iff {source text : String} (h : compile source = .ok text) :
    ∃ p, Program.ofSource source = .ok p ∧ (∃ part, DataPart text part) ∧
      ((∀ part, DataPart text part → part.length = p.strings.eraseDups.length ∧
          ∀ (k : Nat) line, part[k]? = some line → s!"__str{k}: db ".toList <+: line.toList) ↔
        ∀ raw ∈ p.strings, '\n' ∉ raw.toList) := by
  obtain ⟨p, listing, hp, hg, rfl⟩ := compile_eq_ok.1 h
  have htexts : listing.literals.texts = p.strings.eraseDups := by
    rw [Generator.literals_eq hg]
    exact (LiteralPool.numbers_internAll p.strings).texts_eq
  have hlength : listing.dataEntries.length = p.strings.eraseDups.length := by
    rw [Listing.length_dataEntries, htexts]
  have hfeeds : (∀ l ∈ listing.dataEntries, '\n' ∉ l.toList) ↔
      ∀ raw ∈ p.strings, '\n' ∉ raw.toList := by
    rw [Listing.forall_dataEntries, htexts]
    simp only [List.mem_eraseDups]
  have hpart :
      DataPart listing.text (listing.dataEntries.flatMap fun l => Text.lines (l ++ "\n")) :=
    ⟨_, _, Generator.lines_text hp hg⟩
  refine ⟨p, hp, ⟨_, hpart⟩, fun hall => ?_, fun hnone part hpart => ?_⟩
  · rw [← hfeeds, ← Text.length_flatMap_lines_eq_iff, hlength]
    exact (hall _ hpart).1
  · obtain rfl := eq_of_dataPart hp hg (hfeeds.2 hnone) hpart
    refine ⟨hlength, fun k line hline => ?_⟩
    rw [Listing.getElem?_dataEntries] at hline
    obtain ⟨raw, -, rfl⟩ := Option.map_eq_some_iff.1 hline
    exact ⟨(Literal.operands raw).toList, String.toList_append.symm⟩

/-- Two literals, one of them with escapes and twice in the program. -/
theorem one_line_per_literal_of_escapes : ∃ text part,
    compile r#"fn f(s: u8*) { f("a\n\"b"); f("c"); f("a\n\"b"); }"# = .ok text ∧
    DataPart text part ∧ part.length = 2 ∧
    ∀ (k : Nat) line, part[k]? = some line → s!"__str{k}: db ".toList <+: line.toList := by
  obtain ⟨p, hp, hcheck⟩ := exists_of_someProgram
    r#"fn f(s: u8*) { f("a\n\"b"); f("c"); f("a\n\"b"); }"#
    (fun p => (Generator.generate {} p).1.isOk && p.strings == ["a\\n\\\"b", "c", "a\\n\\\"b"])
    (by decide +kernel)
  obtain ⟨hok, hstrings⟩ := Bool.and_eq_true_iff.1 hcheck
  obtain ⟨listing, hg⟩ := exists_ok_of_isOk hok
  have htext := compile_eq_ok.2 ⟨p, listing, hp, hg, rfl⟩
  obtain ⟨p', hp', ⟨part, hpart⟩, hlines⟩ := one_line_per_literal_iff htext
  obtain rfl := Except.ok.inj (hp.symm.trans hp')
  rw [eq_of_beq hstrings] at hlines
  obtain ⟨hlength, hstarts⟩ := hlines.2 (by decide +kernel) part hpart
  exact ⟨listing.text, part, htext, hpart, hlength, hstarts⟩

/-- A literal with a line feed behind a backslash stands on two lines. -/
theorem literal_on_two_lines : ∃ text p,
    let source := "\n".intercalate [r#"fn f(s: u8*) { f("a\"#, r#"b"); }"#]
    compile source = .ok text ∧ Program.ofSource source = .ok p ∧
    p.strings.eraseDups.length = 1 ∧ DataPart text ["__str0: db \"a", "b\", 0"] := by
  obtain ⟨p, hp, hcheck⟩ := exists_of_someProgram
    ("\n".intercalate [r#"fn f(s: u8*) { f("a\"#, r#"b"); }"#])
    (fun p => p.strings.eraseDups.length == 1 &&
      ((Generator.generate {} p).1.map fun listing => (Text.lines listing.text).take 7).toOption ==
        some ["BITS 32", "global main", "extern memcpy", "section .data", "__str0: db \"a",
          "b\", 0", "section .text"])
    (by decide +kernel)
  obtain ⟨hstrings, hlines⟩ := Bool.and_eq_true_iff.1 hcheck
  cases hg : (Generator.generate {} p).1 with
  | error ds =>
    rw [hg] at hlines
    cases hlines
  | ok listing =>
    rw [hg] at hlines
    have htake : (Text.lines listing.text).take 7 = _ := Option.some.inj (eq_of_beq hlines)
    have hsplit := List.take_append_drop 7 (Text.lines listing.text)
    rw [htake] at hsplit
    exact ⟨listing.text, p, compile_eq_ok.2 ⟨p, listing, hp, hg, rfl⟩, hp, eq_of_beq hstrings,
      ["BITS 32", "global main", "extern memcpy"], _, hsplit.symm⟩

end GLang
