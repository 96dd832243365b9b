import GLang.Proofs.MaximalMunch

/-!
# Where a text cannot be read

A text without tokens is gaps and lexemes up to a place where no lexeme can be read. What can be
wrong there is said apart from the lexer: `Lexer.Unreadable`. The error is reported at the first
character of what cannot be read, but for a `!` or a `|` that stands alone, which is reported one
column further on: `LexicalFault.reportedAt`.

* `Lexer.unreadable_iff`: the faults of one lexeme.
* `Lexer.Reads`: the gaps and lexemes before it have been read, each as long as it can be.
* `Token.error_iff_unreadable`: a text has no tokens exactly if it can be read up to something that
  cannot.
-/

namespace GLang

namespace LexicalFault

/-- How many columns after the start of its lexeme a fault is reported. -/
def shift : LexicalFault → Nat
  | .loneBang | .loneBar => 1
  | .stray _ | .tooLarge _ | .unterminatedString => 0

/-- Where a fault is reported whose lexeme starts at `p`. -/
def reportedAt (fault : LexicalFault) (p : Location) : Location :=
  ⟨p.line, p.column + fault.shift⟩

theorem reportedAt_eq_iff {fault : LexicalFault} {p : Location} :
    fault.reportedAt p = p ↔ fault ≠ .loneBang ∧ fault ≠ .loneBar := by
  obtain ⟨line, column⟩ := p
  cases fault <;> simp [reportedAt, LexicalFault.shift]

end LexicalFault

namespace Lexer

/-- No lexeme can be read at the front of a text, for the given reason. -/
inductive Unreadable : List Char → LexicalFault → Prop where
  /-- A character that no token starts with. -/
  | stray {c cs} (h : ∀ xs, ¬ IsLexeme (c :: xs)) : Unreadable (c :: cs) (.stray c)
  | loneBang {cs} (h : cs.head? ≠ some '=') : Unreadable ('!' :: cs) .loneBang
  | loneBar {cs} (h : cs.head? ≠ some '|') : Unreadable ('|' :: cs) .loneBar
  /-- All digits up to the next other character make too large a number. -/
  | tooLarge {digits cs} (hdigits : Longest (fun ds => ∀ d ∈ ds, d.isDigit) digits cs)
      (h : maxLiteral < Text.value digits) : Unreadable cs (.tooLarge (String.ofList digits))
  /-- No quote ends the literal that a quote starts. -/
  | unterminatedString {cs} (h : ∀ raw, IsQuoted raw → ¬ raw ++ ['"'] <+: cs) :
      Unreadable ('"' :: cs) .unterminatedString

/-- The text `xs`, after which `rest` stands, is a gap and a lexeme by turns, the last one being a
gap. Each is as long as it can be, and each lexeme can be read. -/
inductive Reads : List Char → List Char → Prop where
  | gap {gap rest : List Char} (hgap : Longest IsGap gap (gap ++ rest)) : Reads gap rest
  | next {gap lexeme xs rest : List Char}
      (hgap : Longest IsGap gap (gap ++ (lexeme ++ (xs ++ rest))))
      (hlexeme : Longest IsLexeme lexeme (lexeme ++ (xs ++ rest)))
      (hread : ∀ fault, ¬ Unreadable (lexeme ++ (xs ++ rest)) fault)
      (hrest : Reads xs rest) : Reads (gap ++ (lexeme ++ xs)) rest

/-! ### One lexeme -/

theorem single?_of_pair? {c d : Char} {s : Sign} (h : Sign.pair? c d = some s)
    (hsingle : Sign.single? c = none) : c = '!' ∨ c = '|' := by
  unfold Sign.pair? at h
  split at h <;> first | cases h; done | cases hsingle; done | simp

theorem second_of_pair? {c d : Char} {s : Sign} (h : Sign.pair? c d = some s) :
    (c = '!' → d = '=') ∧ (c = '|' → d = '|') := by
  unfold Sign.pair? at h
  split at h <;> first | cases h; done | decide

theorem bind_pair?_eq_none {c : Char} {cs : List Char}
    (h : ∀ d s, cs.head? = some d → Sign.pair? c d ≠ some s) :
    cs.head?.bind (Sign.pair? c) = none := by
  cases hd : cs.head? with
  | none => rfl
  | some d => exact Option.eq_none_iff_forall_ne_some.2 fun s => h d s hd

theorem isLexeme_of_startsName {c : Char} (h : startsName c) : IsLexeme [c] :=
  ⟨_, denotes_word h (by simp)⟩

theorem isLexeme_of_isDigit {c : Char} (h : c.isDigit) : IsLexeme [c] := by
  have hcode := toNat_of_isDigit h
  have hvalue : Text.value [c] = c.toNat - 48 := by simp [Text.value]
  have hmax : maxLiteral = 0x7FFFFFFFFFFFFFFF := rfl
  exact ⟨_, .int (by simpa using h) (by omega)⟩

theorem isLexeme_of_sign? {xs : List Char} {s : Sign} (h : sign? xs = some s) : IsLexeme xs := by
  rw [sign?_eq_some.1 h]
  exact ⟨_, .sign s⟩

theorem not_isLexeme {c : Char} (hsingle : Sign.single? c = none) (hbang : c ≠ '!') (hbar : c ≠ '|')
    (hquote : c ≠ '"') (hdigit : ¬ c.isDigit) (hname : ¬ startsName c) (xs : List Char) :
    ¬ IsLexeme (c :: xs) := by
  rintro ⟨token, h⟩
  obtain ⟨c', cs', heq, hshape⟩ := shape_of_denotes h
  cases heq
  cases hshape with
  | sign s hs =>
    rcases xs with _ | ⟨d, _ | ⟨_, _⟩⟩
    · cases hsingle.symm.trans hs
    · exact (single?_of_pair? hs hsingle).elim hbang hbar
    · cases hs
  | str _ hc _ _ => exact hquote hc
  | int hc _ => exact hdigit hc
  | word hc _ => exact hname hc

theorem longest_takeWhile (p : Char → Bool) (cs : List Char) :
    Longest (fun ds => ∀ d ∈ ds, p d) (cs.takeWhile p) cs where
  front := List.takeWhile_prefix p
  holds _ hd := List.mem_takeWhile_imp hd
  length_le _ hys h := length_le_takeWhile hys h

theorem quoted?_eq_none {cs : List Char} :
    quoted? cs = none ↔ ∀ raw, IsQuoted raw → ¬ raw ++ ['"'] <+: cs := by
  constructor
  · rintro h raw hraw ⟨rest, rfl⟩
    have hsome := quoted?_of_isQuoted hraw rest
    rw [List.append_assoc, List.singleton_append, hsome] at h
    cases h
  · intro h
    cases hq : quoted? cs with
    | none => rfl
    | some raw => exact absurd (isQuoted_of_quoted? hq).2 (h raw (isQuoted_of_quoted? hq).1)

theorem unreadable_of_lexeme {c : Char} {cs : List Char} {stop : Stop}
    (h : lexeme c cs = .error stop) :
    Unreadable (c :: cs) stop.fault ∧ stop.offset = stop.fault.shift := by
  simp only [lexeme] at h
  split at h
  · cases h
  rename_i hpair
  split at h
  · cases h
  rename_i hsingle
  split at h
  · rename_i hbang
    subst hbang
    cases h
    refine ⟨.loneBang fun heq => ?_, rfl⟩
    rw [heq] at hpair
    cases hpair
  rename_i hbang
  split at h
  · rename_i hbar
    subst hbar
    cases h
    refine ⟨.loneBar fun heq => ?_, rfl⟩
    rw [heq] at hpair
    cases hpair
  rename_i hbar
  split at h
  · rename_i hquote
    subst hquote
    split at h
    · cases h
    · rename_i hraw
      cases h
      exact ⟨.unterminatedString (quoted?_eq_none.1 hraw), rfl⟩
  rename_i hquote
  split at h
  · rename_i hdigit
    split at h
    · cases h
    · rename_i hmax
      cases h
      have hlongest := longest_takeWhile Char.isDigit (c :: cs)
      rw [List.takeWhile_cons_of_pos hdigit] at hlongest
      exact ⟨.tooLarge hlongest (Nat.lt_of_not_le hmax), rfl⟩
  rename_i hdigit
  split at h
  · cases h
  · rename_i hname
    cases h
    exact ⟨.stray (not_isLexeme hsingle hbang hbar hquote hdigit hname), rfl⟩

theorem lexeme_of_unreadable {c : Char} {cs : List Char} {fault : LexicalFault}
    (h : Unreadable (c :: cs) fault) : lexeme c cs = .error ⟨fault, fault.shift⟩ := by
  generalize hxs : c :: cs = xs at h
  cases h with
  | @stray c' cs' h =>
    cases hxs
    have hpair : cs.head?.bind (Sign.pair? c) = none :=
      bind_pair?_eq_none fun d s _ hs => h [d] (isLexeme_of_sign? (s := s) hs)
    have hsingle : Sign.single? c = none :=
      Option.eq_none_iff_forall_ne_some.2 fun s hs => h [] (isLexeme_of_sign? (s := s) hs)
    have hbang : c ≠ '!' := by
      rintro rfl
      exact h ['='] ⟨_, .sign .notEqual⟩
    have hbar : c ≠ '|' := by
      rintro rfl
      exact h ['|'] ⟨_, .sign .orOr⟩
    have hquote : c ≠ '"' := by
      rintro rfl
      exact h ['"'] ⟨_, .str .nil⟩
    have hdigit : ¬ c.isDigit := fun hd => h [] (isLexeme_of_isDigit hd)
    have hname : ¬ startsName c := fun hn => h [] (isLexeme_of_startsName hn)
    simp only [lexeme, hpair, hsingle, if_neg hbang, if_neg hbar, if_neg hquote, if_neg hdigit,
      if_neg hname, LexicalFault.shift]
  | loneBang h =>
    cases hxs
    have hpair : cs.head?.bind (Sign.pair? '!') = none :=
      bind_pair?_eq_none fun d s hd hs => h (hd.trans (congrArg some ((second_of_pair? hs).1 rfl)))
    have hsingle : Sign.single? '!' = none := rfl
    simp only [lexeme, hpair, hsingle, if_true, LexicalFault.shift]
  | loneBar h =>
    cases hxs
    have hpair : cs.head?.bind (Sign.pair? '|') = none :=
      bind_pair?_eq_none fun d s hd hs => h (hd.trans (congrArg some ((second_of_pair? hs).2 rfl)))
    have hsingle : Sign.single? '|' = none := rfl
    simp only [lexeme, hpair, hsingle, Char.reduceEq, if_false, if_true, LexicalFault.shift]
  | tooLarge hdigits hmax =>
    subst hxs
    obtain rfl := hdigits.unique (longest_takeWhile Char.isDigit (c :: cs))
    by_cases hc : c.isDigit
    · rw [List.takeWhile_cons_of_pos hc] at hmax ⊢
      simp only [lexeme_of_isWordCode (isWordCode_of_isDigit hc), if_pos hc,
        if_neg (Nat.not_le_of_lt hmax), LexicalFault.shift]
    · rw [List.takeWhile_cons_of_neg hc] at hmax
      exact absurd hmax (Nat.not_lt_zero _)
  | unterminatedString h =>
    cases hxs
    have hpair : cs.head?.bind (Sign.pair? '"') = none := by
      cases cs.head? <;> rfl
    have hsingle : Sign.single? '"' = none := rfl
    simp only [lexeme, hpair, hsingle, quoted?_eq_none.2 h, Char.reduceEq, if_false, if_true,
      LexicalFault.shift]

/-- **The faults of a lexeme:** the lexer finds the one that there is. -/
theorem unreadable_iff {c : Char} {cs : List Char} {fault : LexicalFault} :
    Unreadable (c :: cs) fault ↔ lexeme c cs = .error ⟨fault, fault.shift⟩ :=
  ⟨lexeme_of_unreadable, fun h => (unreadable_of_lexeme h).1⟩

/-! ### The whole text -/

/-- A sign that stands alone is no line feed, so the place after it is in the same line. -/
theorem reportedAt_ofPrefix {before cs : List Char} {fault : LexicalFault}
    (h : Unreadable cs fault) :
    fault.reportedAt (.ofPrefix before) = .ofPrefix (before ++ cs.take fault.shift) := by
  cases h with
  | loneBang | loneBar =>
    rw [← Location.after_ofPrefix]
    rfl
  | stray | tooLarge | unterminatedString =>
    simp [LexicalFault.reportedAt, LexicalFault.shift]

theorem exists_reads_of_scan (before cs : List Char) {e : SyntaxError}
    (h : scan 0 (.ofPrefix before) cs = .error e) : ∃ xs rest fault, cs = xs ++ rest ∧
      Reads xs rest ∧ Unreadable rest fault ∧
      e = ⟨.lexical fault, fault.reportedAt (.ofPrefix (before ++ xs))⟩ := by
  induction hn : cs.length using Nat.strong_induction_on generalizing before cs with
  | _ n ih =>
    subst hn
    obtain ⟨gap, rest, rfl, hgap, hscan, hrest⟩ := exists_longest_gap cs
    rw [hscan, Location.after_ofPrefix] at h
    cases rest with
    | nil => cases h
    | cons c cs =>
      obtain ⟨hb, hslash⟩ := hrest c cs rfl
      obtain ⟨stop, hl, hstep⟩ | ⟨token, ys, rest, rfl, hl, -, hlexeme, hstep⟩ :=
        scan_cons (before ++ gap) hb hslash
      · obtain ⟨hunreadable, hoffset⟩ := unreadable_of_lexeme hl
        rw [hstep, hoffset, ← reportedAt_ofPrefix hunreadable] at h
        cases h
        exact ⟨gap, c :: cs, stop.fault, rfl, .gap hgap, hunreadable, rfl⟩
      · rw [hstep] at h
        cases hs : scan 0 (.ofPrefix (before ++ gap ++ (c :: ys))) rest with
        | ok tokens =>
          rw [hs] at h
          cases h
        | error e' =>
          rw [hs] at h
          cases h
          obtain ⟨xs, rest, fault, rfl, hreads, hunreadable, rfl⟩ :=
            ih rest.length (by simp; omega) _ rest hs rfl
          have hread : ∀ fault, ¬ Unreadable (c :: ys ++ (xs ++ rest)) fault := by
            intro fault hfault
            cases hl.symm.trans (unreadable_iff.1 hfault)
          exact ⟨gap ++ (c :: ys ++ xs), rest, fault, by simp, .next hgap hlexeme hread hreads,
            hunreadable, by simp⟩

theorem scan_after_gap (before : List Char) {gap rest : List Char}
    (h : Longest IsGap gap (gap ++ rest)) :
    scan 0 (.ofPrefix before) (gap ++ rest) = scan 0 (.ofPrefix (before ++ gap)) rest ∧
      ∀ c ds, rest = c :: ds → Text.isBlank c = false ∧ ¬ (c = '/' ∧ ds.head? = some '/') := by
  obtain ⟨gap', rest', heq, hgap', hscan, hrest⟩ := exists_longest_gap (gap ++ rest)
  obtain rfl := h.unique hgap'
  obtain rfl := List.append_cancel_left heq
  exact ⟨by rw [hscan, Location.after_ofPrefix], hrest⟩

theorem scan_of_reads {xs rest : List Char} {fault : LexicalFault} (h : Reads xs rest)
    (hfault : Unreadable rest fault) : ∀ before, scan 0 (.ofPrefix before) (xs ++ rest) =
      .error ⟨.lexical fault, fault.reportedAt (.ofPrefix (before ++ xs))⟩ := by
  induction h with
  | @gap gap rest hgap =>
    intro before
    obtain ⟨hscan, hstuck⟩ := scan_after_gap before hgap
    cases rest with
    | nil =>
      cases hfault with
      | tooLarge hdigits hmax =>
        obtain rfl := List.prefix_nil.1 hdigits.front
        exact absurd hmax (Nat.not_lt_zero _)
    | cons c cs =>
      obtain ⟨hb, hslash⟩ := hstuck c cs rfl
      have hl := unreadable_iff.1 hfault
      obtain ⟨stop, hl', hstep⟩ | ⟨token, ys, rest, -, hl', -⟩ :=
        scan_cons (before ++ gap) hb hslash
      · cases hl.symm.trans hl'
        rw [hscan, hstep, reportedAt_ofPrefix hfault]
      · cases hl.symm.trans hl'
  | @next gap lexeme xs rest hgap hlexeme hread hrest ih =>
    intro before
    obtain ⟨hscan, hstuck⟩ := scan_after_gap before hgap
    obtain ⟨token, htoken⟩ := hlexeme.holds
    obtain ⟨c, ys, rfl, -⟩ := shape_of_denotes htoken
    obtain ⟨hb, hslash⟩ := hstuck c (ys ++ (xs ++ rest)) rfl
    obtain ⟨stop, hl, -⟩ | ⟨token, ys', rest', heq, -, -, hlexeme', hstep⟩ :=
      scan_cons (before ++ gap) hb hslash
    · exact absurd (unreadable_of_lexeme hl).1 (hread _)
    · cases hlexeme.unique hlexeme'
      obtain rfl := List.append_cancel_left heq
      have htext : gap ++ (c :: ys ++ xs) ++ rest = gap ++ (c :: ys ++ (xs ++ rest)) := by simp
      rw [htext, hscan]
      refine hstep.trans ?_
      rw [ih hfault]
      simp [Except.map]

end Lexer

/-- **Where lexical errors are reported.** A text has no tokens exactly if it can be read up to a
lexeme that cannot; the error says what is wrong with that one. It is reported at the first
character of the lexeme exactly if that is not a `!` or a `|` that stands alone: those are reported
one column further on. -/
theorem Token.error_iff_unreadable (source : String) (e : SyntaxError) :
    Token.ofSource source = .error e ↔ ∃ before rest fault, source.toList = before ++ rest ∧
      Lexer.Reads before rest ∧ Lexer.Unreadable rest fault ∧
      e = ⟨.lexical fault, fault.reportedAt (.ofPrefix before)⟩ ∧
      (e.location = .ofPrefix before ↔ fault ≠ .loneBang ∧ fault ≠ .loneBar) := by
  constructor
  · intro h
    obtain ⟨before, rest, fault, hsource, hreads, hunreadable, rfl⟩ :=
      Lexer.exists_reads_of_scan [] _ h
    exact ⟨before, rest, fault, hsource, hreads, hunreadable, rfl, LexicalFault.reportedAt_eq_iff⟩
  · rintro ⟨before, rest, fault, hsource, hreads, hunreadable, rfl, -⟩
    rw [Token.ofSource, hsource]
    exact Lexer.scan_of_reads hreads hunreadable []

/-- A `!` that stands alone is reported where the next character stands. -/
theorem Token.lone_bang_reported_behind :
    Token.ofSource "x = !y;" = .error ⟨.lexical .loneBang, ⟨1, 6⟩⟩ ∧
    "x = !y;".toList = "x = ".toList ++ "!y;".toList ∧
    Lexer.Unreadable "!y;".toList .loneBang ∧ Location.ofPrefix "x = ".toList = ⟨1, 5⟩ :=
  ⟨by cbv, by decide, .loneBang (by decide), by decide⟩

end GLang
