import GLang.Proofs.Lexemes

/-!
# A text is gaps and lexemes, each as long as it can be

What a gap is and which texts are tokens is said here apart from the lexer: `Lexer.IsGap` and
`Token.Denotes`. Neither says how far to read. That is said once for both, by `Longest`: of all
texts at the front of what is left, the longest one counts.

`Lexer.Decomposes before cs tokens` puts the two together. The text `cs`, which stands after
`before`, is a gap and a lexeme by turns, and every token stands at the place of its first
character, found by counting the line feeds before it and the characters since the last one.

* `Lexer.exists_longest_gap`: what the lexer skips is the longest gap.
* `Lexer.longest_lexeme`: what it takes for a lexeme is the longest text that is a token.
* `Token.decomposes_of_source`: so the tokens of a source text are those of its decomposition.
  `Lexer.Decomposes.unique`: there is only one.
-/

namespace GLang

/-! ### Places -/

/-- The place after `before`: its line is counted by line feeds, its column by the characters since
the last of them. -/
def Location.ofPrefix (before : List Char) : Location :=
  ⟨1 + before.count '\n', 1 + (before.reverse.takeWhile (· ≠ '\n')).length⟩

/-- Walking over a text leads to the place that counting gives. -/
theorem Location.after_start (before : List Char) :
    Location.start.after before = .ofPrefix before := by
  induction before using List.reverseRecOn with
  | nil => rfl
  | append_singleton before c ih =>
    rw [after_append, ih, after_cons, after_nil, next]
    by_cases hc : c = '\n'
    · subst hc
      simp [ofPrefix]
      omega
    · have hcount : [c].count '\n' = 0 := List.count_eq_zero.2 (by simpa using Ne.symm hc)
      simp [ofPrefix, hc, hcount]
      omega

theorem Location.after_ofPrefix (before cs : List Char) :
    (Location.ofPrefix before).after cs = .ofPrefix (before ++ cs) := by
  rw [← after_start, ← after_start, after_append]

/-! ### The longest text at the front -/

/-- `xs` is the longest text at the front of `cs` that `P` holds of. -/
structure Longest (P : List Char → Prop) (xs cs : List Char) : Prop where
  front : xs <+: cs
  holds : P xs
  length_le : ∀ ys, ys <+: cs → P ys → ys.length ≤ xs.length

theorem Longest.unique {P : List Char → Prop} {xs ys cs : List Char} (h : Longest P xs cs)
    (h' : Longest P ys cs) : xs = ys := by
  have hle := h.length_le ys h'.front h'.holds
  have hle' := h'.length_le xs h.front h.holds
  have hfront : xs <+: ys := List.prefix_of_prefix_length_le h.front h'.front hle'
  exact hfront.eq_of_length (by omega)

namespace Lexer

/-! ### Gaps -/

/-- Blanks and comments. A comment goes on up to a line feed, unless the gap ends with it. -/
inductive IsGap : List Char → Prop where
  | nil : IsGap []
  | blank {c cs} (hc : Text.isBlank c) (h : IsGap cs) : IsGap (c :: cs)
  | comment {body cs} (hbody : '\n' ∉ body) (hcs : ∀ c, cs.head? = some c → c = '\n')
      (h : IsGap cs) : IsGap ('/' :: '/' :: (body ++ cs))

theorem not_isGap_of_not_blank {c : Char} {cs ys : List Char} (hc : Text.isBlank c = false)
    (hslash : ¬ (c = '/' ∧ cs.head? = some '/')) (hys : ys <+: c :: cs) (h : IsGap ys) :
    ys = [] := by
  cases h with
  | nil => rfl
  | blank hb h =>
    obtain ⟨rfl, -⟩ := List.cons_prefix_cons.1 hys
    rw [hb] at hc
    cases hc
  | comment hbody hcs h =>
    obtain ⟨rfl, rest, rfl⟩ := List.cons_prefix_cons.1 hys
    exact absurd ⟨rfl, rfl⟩ hslash

theorem longest_gap_stuck {c : Char} {cs : List Char} (hc : Text.isBlank c = false)
    (hslash : ¬ (c = '/' ∧ cs.head? = some '/')) : Longest IsGap [] (c :: cs) where
  front := List.nil_prefix
  holds := .nil
  length_le ys hys h := by
    rw [not_isGap_of_not_blank hc hslash hys h]

theorem longest_gap_blank {c : Char} {gap cs : List Char} (hc : Text.isBlank c)
    (h : Longest IsGap gap cs) : Longest IsGap (c :: gap) (c :: cs) where
  front := List.cons_prefix_cons.2 ⟨rfl, h.front⟩
  holds := .blank hc h.holds
  length_le ys hys hgap := by
    cases hgap with
    | nil => exact Nat.zero_le _
    | blank hb hgap =>
      have := h.length_le _ (List.cons_prefix_cons.1 hys).2 hgap
      simpa using this
    | comment hbody hcs hgap =>
      obtain ⟨rfl, -⟩ := List.cons_prefix_cons.1 hys
      exact absurd hc (by decide)

/-- The first lines of a text and of one at its front: the second may end early, but it does not go
on beyond the first. -/
theorem front_of_lines {body body' cs rest : List Char} (hbody : '\n' ∉ body)
    (hbody' : '\n' ∉ body') (hrest : ∀ c, rest.head? = some c → c = '\n')
    (hcs : ∀ c, cs.head? = some c → c = '\n') (h : body' ++ cs <+: body ++ rest) :
    body'.length ≤ body.length ∧ (cs = [] ∨ body' = body ∧ cs <+: rest) := by
  induction body' generalizing body with
  | nil =>
    refine ⟨Nat.zero_le _, ?_⟩
    cases cs with
    | nil => exact .inl rfl
    | cons c cs =>
      obtain rfl := hcs c rfl
      cases body with
      | nil => exact .inr ⟨rfl, h⟩
      | cons d body =>
        obtain ⟨rfl, -⟩ := List.cons_prefix_cons.1 h
        exact absurd List.mem_cons_self hbody
  | cons c body' ih =>
    cases body with
    | nil =>
      cases rest with
      | nil => simp at h
      | cons d rest =>
        obtain ⟨rfl, -⟩ := List.cons_prefix_cons.1 h
        obtain rfl := hrest c rfl
        exact absurd List.mem_cons_self hbody'
    | cons d body =>
      obtain ⟨rfl, htail⟩ := List.cons_prefix_cons.1 h
      obtain ⟨hle, hcases⟩ := ih (fun hm => hbody (List.mem_cons_of_mem _ hm))
        (fun hm => hbody' (List.mem_cons_of_mem _ hm)) htail
      refine ⟨Nat.succ_le_succ hle, hcases.imp_right ?_⟩
      rintro ⟨rfl, hcs⟩
      exact ⟨rfl, hcs⟩

theorem longest_gap_comment {body gap rest : List Char} (hbody : '\n' ∉ body)
    (hrest : ∀ c, rest.head? = some c → c = '\n') (h : Longest IsGap gap rest) :
    Longest IsGap ('/' :: '/' :: (body ++ gap)) ('/' :: '/' :: (body ++ rest)) where
  front := by
    obtain ⟨more, rfl⟩ := h.front
    exact ⟨more, by simp⟩
  holds := by
    refine .comment hbody ?_ h.holds
    intro c hc
    obtain ⟨more, rfl⟩ := h.front
    refine hrest c ?_
    rw [List.head?_append, hc]
    rfl
  length_le ys hys hgap := by
    cases hgap with
    | nil => exact Nat.zero_le _
    | blank hb hgap =>
      obtain ⟨rfl, -⟩ := List.cons_prefix_cons.1 hys
      exact absurd hb (by decide)
    | @comment body' cs hbody' hcs hgap =>
      have hys : body' ++ cs <+: body ++ rest := by simpa [List.cons_prefix_cons] using hys
      obtain ⟨hle, rfl | ⟨rfl, hcs⟩⟩ := front_of_lines hbody hbody' hrest hcs hys
      · simp
        omega
      · have := h.length_le cs hcs hgap
        simp
        omega

/-- **What the lexer skips is the longest gap.** -/
theorem exists_longest_gap (cs : List Char) : ∃ gap rest, cs = gap ++ rest ∧ Longest IsGap gap cs ∧
    (∀ p, scan 0 p cs = scan 0 (p.after gap) rest) ∧
    ∀ c ds, rest = c :: ds → Text.isBlank c = false ∧ ¬ (c = '/' ∧ ds.head? = some '/') := by
  -- A comment is skipped as a whole, so the induction is on the length of the text.
  induction hn : cs.length using Nat.strong_induction_on generalizing cs with
  | _ n ih =>
    cases cs with
    | nil => exact ⟨[], [], rfl, ⟨ List.nil_prefix, .nil, by simp⟩, fun p => rfl, by simp⟩
    | cons c cs =>
      subst hn
      by_cases hb : Text.isBlank c
      · obtain ⟨gap, rest, hcs, hlongest, hscan, hrest⟩ := ih cs.length (by simp) cs rfl
        refine ⟨c :: gap, rest, by rw [hcs]; rfl, longest_gap_blank hb hlongest, ?_, hrest⟩
        intro p
        rw [scan, if_pos hb, hscan]
        rfl
      · have hb : Text.isBlank c = false := by simpa using hb
        by_cases hslash : c = '/' ∧ cs.head? = some '/'
        · obtain ⟨rfl, hhead⟩ := hslash
          obtain ⟨ds, rfl⟩ : ∃ ds, cs = '/' :: ds := by
            cases cs with
            | nil => cases hhead
            | cons d ds =>
              cases hhead
              exact ⟨ds, rfl⟩
          have hsplit := List.takeWhile_append_dropWhile (p := (· ≠ '\n')) (l := ds)
          generalize hbody : ds.takeWhile (· ≠ '\n') = body at hsplit
          generalize htail : ds.dropWhile (· ≠ '\n') = tail at hsplit
          have hfeed : '\n' ∉ body := by
            intro hm
            rw [← hbody] at hm
            simpa using List.mem_takeWhile_imp hm
          have hhead : ∀ d, tail.head? = some d → d = '\n' := by
            intro d hd
            rw [← htail] at hd
            have := List.head?_dropWhile_not (fun c : Char => decide (c ≠ '\n')) ds
            rw [hd] at this
            simpa using this
          have hlength : tail.length < ('/' :: '/' :: ds).length := by
            rw [← hsplit]
            simp
            omega
          obtain ⟨gap, rest, htail', hlongest, hscan, hrest⟩ := ih tail.length hlength tail rfl
          refine ⟨'/' :: '/' :: (body ++ gap), rest, ?_, ?_, ?_, hrest⟩
          · rw [← hsplit, htail']
            simp
          · rw [← hsplit]
            exact longest_gap_comment hfeed hhead hlongest
          · intro p
            have hwalk : (('/' :: ds).takeWhile (· ≠ '\n')) = '/' :: body := by
              rw [← hbody]
              rfl
            rw [scan, hb, if_neg Bool.false_ne_true, if_pos ⟨rfl, rfl⟩, hwalk, ← hsplit,
              ← List.cons_append, scan_append, hscan]
            simp
        · refine ⟨[], c :: cs, rfl, longest_gap_stuck hb hslash, fun p => rfl, ?_⟩
          intro c' ds h
          cases h
          exact ⟨hb, hslash⟩

end Lexer

/-! ### Tokens -/

/-- What may stand between the quotes of a string literal: a backslash takes the next character with
it, and no other quote, backslash or line feed is there. -/
inductive Lexer.IsQuoted : List Char → Prop where
  | nil : IsQuoted []
  | pair {c cs} (h : IsQuoted cs) : IsQuoted ('\\' :: c :: cs)
  | char {c cs} (hquote : c ≠ '"') (hslash : c ≠ '\\') (hfeed : c ≠ '\n') (h : IsQuoted cs) :
      IsQuoted (c :: cs)

/-- The text of a token. A word is a keyword exactly if it is spelled like one. -/
inductive Token.Denotes : Token → List Char → Prop where
  | keyword (k : Keyword) : Denotes (.keyword k) k.text.toList
  | name {c cs} (hc : Lexer.startsName c) (hcs : ∀ d ∈ cs, Lexer.continuesName d)
      (hk : ∀ k : Keyword, k.text ≠ String.ofList (c :: cs)) :
      Denotes (.name (String.ofList (c :: cs))) (c :: cs)
  | int {c cs} (hcs : ∀ d ∈ c :: cs, d.isDigit) (hmax : Text.value (c :: cs) ≤ Lexer.maxLiteral) :
      Denotes (.int (Text.value (c :: cs))) (c :: cs)
  | str {raw} (h : Lexer.IsQuoted raw) : Denotes (.str (String.ofList raw)) ('"' :: (raw ++ ['"']))
  | sign (s : Sign) : Denotes (.sign s) s.text.toList

namespace Lexer

/-- The texts that are tokens. -/
def IsLexeme (xs : List Char) : Prop :=
  ∃ token : Token, token.Denotes xs

/-! ### How a lexeme starts -/

/-- The sign of one or two characters that a text is. -/
def sign? : List Char → Option Sign
  | [c] => Sign.single? c
  | [c, d] => Sign.pair? c d
  | _ => none

theorem sign?_eq_some {xs : List Char} {s : Sign} : sign? xs = some s ↔ xs = s.text.toList := by
  constructor
  · intro h
    unfold sign? at h
    split at h
    · unfold Sign.single? at h
      split at h <;> first | cases h; done | (cases h; rfl)
    · unfold Sign.pair? at h
      split at h <;> first | cases h; done | (cases h; rfl)
    · cases h
  · rintro rfl
    cases s <;> rfl

theorem keyword_text (k : Keyword) : ∃ c cs, k.text.toList = c :: cs ∧ startsName c ∧
    ∀ d ∈ cs, continuesName d := by
  cases k <;> exact ⟨_, _, rfl, by decide, List.all_eq_true.1 (by decide)⟩

/-- The kinds of tokens by their text `c :: cs`. No two of them start with the same character. -/
inductive Shape (c : Char) (cs : List Char) : Prop where
  | sign (s : Sign) (h : sign? (c :: cs) = some s)
  | str (raw : List Char) (hc : c = '"') (hraw : IsQuoted raw) (hcs : cs = raw ++ ['"'])
  | int (hc : c.isDigit) (hcs : ∀ d ∈ cs, d.isDigit)
  | word (hc : startsName c) (hcs : ∀ d ∈ cs, continuesName d)

theorem shape_of_denotes {token : Token} {xs : List Char} (h : token.Denotes xs) :
    ∃ c cs, xs = c :: cs ∧ Shape c cs := by
  cases h with
  | keyword k =>
    obtain ⟨c, cs, hk, hc, hcs⟩ := keyword_text k
    exact ⟨c, cs, hk, .word hc hcs⟩
  | name hc hcs hk => exact ⟨_, _, rfl, .word hc hcs⟩
  | int hcs hmax =>
    obtain ⟨hc, hcs⟩ := List.forall_mem_cons.1 hcs
    exact ⟨_, _, rfl, .int hc hcs⟩
  | str hraw => exact ⟨_, _, rfl, .str _ rfl hraw rfl⟩
  | sign s =>
    have hs : sign? s.text.toList = some s := sign?_eq_some.2 rfl
    cases hxs : s.text.toList with
    | nil =>
      rw [hxs] at hs
      cases hs
    | cons c cs => exact ⟨c, cs, rfl, .sign s (hxs ▸ hs)⟩

theorem shape_of_front {ys : List Char} {c : Char} {cs : List Char} (hys : ys <+: c :: cs)
    (h : IsLexeme ys) : ∃ ds, ys = c :: ds ∧ ds <+: cs ∧ Shape c ds := by
  obtain ⟨token, h⟩ := h
  obtain ⟨d, ds, rfl, hshape⟩ := shape_of_denotes h
  obtain ⟨rfl, hds⟩ := List.cons_prefix_cons.1 hys
  exact ⟨ds, rfl, hds, hshape⟩

theorem sign?_of_isWordCode {c : Char} (hc : IsWordCode c.toNat) (cs : List Char) :
    sign? (c :: cs) = none := by
  match cs with
  | [] => exact hc.single?
  | [d] => exact IsWordCode.pair? (.inl hc)
  | _ :: _ :: _ => rfl

theorem sign?_quote (cs : List Char) : sign? ('"' :: cs) = none := by
  match cs with
  | [] => rfl
  | [d] => rfl
  | _ :: _ :: _ => rfl

theorem isWordCode_of_isDigit {c : Char} (h : c.isDigit) : IsWordCode c.toNat :=
  .inl (toNat_of_isDigit h)

theorem isWordCode_of_startsName {c : Char} (h : startsName c) : IsWordCode c.toNat :=
  .inr (toNat_of_startsName h)

theorem not_isWordCode_quote : ¬ IsWordCode '"'.toNat := by
  unfold IsWordCode
  decide

/-! ### Strings -/

theorem isQuoted_of_quoted? {cs raw : List Char} (h : quoted? cs = some raw) :
    IsQuoted raw ∧ raw ++ ['"'] <+: cs := by
  fun_induction quoted? cs generalizing raw with
  | case1 => cases h
  | case2 cs =>
    cases h
    exact ⟨.nil, by simp [List.cons_prefix_cons]⟩
  | case3 => cases h
  | case4 c cs ih =>
    obtain ⟨raw, hraw, rfl⟩ := Option.map_eq_some_iff.1 h
    obtain ⟨hq, hfront⟩ := ih hraw
    exact ⟨.pair hq, by simpa [List.cons_prefix_cons] using hfront⟩
  | case5 c cs hquote hfeed hslash ih =>
    obtain ⟨raw, hraw, rfl⟩ := Option.map_eq_some_iff.1 h
    obtain ⟨hq, hfront⟩ := ih hraw
    have hne : c ≠ '\\' := by
      rintro rfl
      cases cs with
      | nil => cases hraw
      | cons d ds => exact hslash d ds rfl rfl
    exact ⟨.char hquote hne hfeed hq, by simpa [List.cons_prefix_cons] using hfront⟩

theorem quoted?_of_isQuoted {raw : List Char} (h : IsQuoted raw) (rest : List Char) :
    quoted? (raw ++ '"' :: rest) = some raw := by
  induction h with
  | nil => rfl
  | pair h ih => simp [quoted?, ih]
  | char hquote hslash hfeed h ih =>
    rw [List.cons_append, quoted?, ih]
    · rfl
    · exact hquote
    · exact hfeed
    · exact fun _ _ hc => absurd hc hslash

/-! ### Lexemes -/

/-- A text of which `p` holds throughout is not longer than what `p` holds of at the front. -/
theorem length_le_takeWhile {p : Char → Bool} {ys cs : List Char} (hys : ys <+: cs)
    (h : ∀ d ∈ ys, p d) : ys.length ≤ (cs.takeWhile p).length := by
  obtain ⟨rest, rfl⟩ := hys
  rw [List.takeWhile_append_of_pos h, List.length_append]
  exact Nat.le_add_right _ _

theorem denotes_word {c : Char} {cs : List Char} (hc : startsName c)
    (hcs : ∀ d ∈ cs, continuesName d) : (word (c :: cs)).Denotes (c :: cs) := by
  simp only [word]
  cases hk : Keyword.ofName? (String.ofList (c :: cs)) with
  | some k =>
    have htext : k.text = String.ofList (c :: cs) := by
      have := List.find?_some hk
      simpa using this
    have := Token.Denotes.keyword k
    rwa [htext, String.toList_ofList] at this
  | none =>
    refine .name hc hcs fun k htext => ?_
    have := List.find?_eq_none.1 hk k k.mem_all
    exact this (by simpa using htext)

/-- No other token starts like a sign, so only a longer sign could be longer. -/
theorem longest_of_sign {c : Char} {cs ys : List Char} {s : Sign} (hs : sign? ys = some s)
    (hys : ys <+: c :: cs)
    (hlong : ∀ d, cs.head? = some d → (Sign.pair? c d).isSome → ys.length = 2) :
    Longest IsLexeme ys (c :: cs) := by
  obtain rfl : ys = s.text.toList := sign?_eq_some.1 hs
  refine ⟨hys, ⟨_, .sign s⟩, ?_⟩
  obtain ⟨ds, hds, -, -⟩ := shape_of_front hys ⟨_, .sign s⟩
  rw [hds] at hs ⊢
  intro zs hzs hlexeme
  obtain ⟨es, rfl, hes, hshape⟩ := shape_of_front hzs hlexeme
  cases hshape with
  | sign s' hs' =>
    match es with
    | [] => simp
    | [d] =>
      have hhead : cs.head? = some d := by
        obtain ⟨rest, rfl⟩ := hes
        rfl
      have hpair : Sign.pair? c d = some s' := hs'
      have := hlong d hhead (by rw [hpair]; rfl)
      rw [hds] at this
      simp only [List.length_cons, List.length_nil] at this ⊢
      omega
    | _ :: _ :: _ => cases hs'
  | str raw hc hraw hcs =>
    subst hc
    rw [sign?_quote] at hs
    cases hs
  | int hc hcs =>
    rw [sign?_of_isWordCode (isWordCode_of_isDigit hc)] at hs
    cases hs
  | word hc hcs =>
    rw [sign?_of_isWordCode (isWordCode_of_startsName hc)] at hs
    cases hs

theorem longest_of_quoted? {cs raw : List Char} (h : quoted? cs = some raw) :
    Longest IsLexeme ('"' :: (raw ++ ['"'])) ('"' :: cs) := by
  obtain ⟨hraw, hfront⟩ := isQuoted_of_quoted? h
  refine ⟨List.cons_prefix_cons.2 ⟨rfl, hfront⟩, ⟨_, .str hraw⟩, ?_⟩
  intro ys hys hlexeme
  obtain ⟨es, rfl, hes, hshape⟩ := shape_of_front hys hlexeme
  cases hshape with
  | sign s hs =>
    rw [sign?_quote] at hs
    cases hs
  | str raw' hc hraw' hcs =>
    -- The closing quote is the first that no backslash takes with it, so there is one choice.
    subst hcs
    obtain ⟨rest, rfl⟩ := hes
    have hsame := quoted?_of_isQuoted hraw' rest
    rw [List.append_assoc, List.singleton_append, hsame] at h
    cases h
    exact Nat.le_refl _
  | int hc hcs => exact absurd (isWordCode_of_isDigit hc) not_isWordCode_quote
  | word hc hcs => exact absurd (isWordCode_of_startsName hc) not_isWordCode_quote

theorem longest_of_isDigit {c : Char} {cs : List Char} (hc : c.isDigit)
    (hmax : Text.value (c :: cs.takeWhile Char.isDigit) ≤ maxLiteral) :
    Longest IsLexeme (c :: cs.takeWhile Char.isDigit) (c :: cs) := by
  have hdigits : ∀ d ∈ c :: cs.takeWhile Char.isDigit, d.isDigit :=
    List.forall_mem_cons.2 ⟨hc, fun d hd => List.mem_takeWhile_imp hd⟩
  refine ⟨List.cons_prefix_cons.2 ⟨rfl, List.takeWhile_prefix _⟩, ⟨_, .int hdigits hmax⟩, ?_⟩
  intro ys hys hlexeme
  obtain ⟨es, rfl, hes, hshape⟩ := shape_of_front hys hlexeme
  cases hshape with
  | sign s hs =>
    rw [sign?_of_isWordCode (isWordCode_of_isDigit hc)] at hs
    cases hs
  | str raw hq hraw hcs =>
    subst hq
    exact absurd (isWordCode_of_isDigit hc) not_isWordCode_quote
  | int _ hcs => exact Nat.succ_le_succ (length_le_takeWhile hes hcs)
  | word hname hcs =>
    rw [not_isDigit_of_startsName hname] at hc
    cases hc

theorem longest_of_startsName {c : Char} {cs : List Char} (hc : startsName c) :
    Longest IsLexeme (c :: cs.takeWhile continuesName) (c :: cs) := by
  have hword := denotes_word hc fun d (hd : d ∈ cs.takeWhile continuesName) =>
    List.mem_takeWhile_imp hd
  refine ⟨List.cons_prefix_cons.2 ⟨rfl, List.takeWhile_prefix _⟩, ⟨_, hword⟩, ?_⟩
  intro ys hys hlexeme
  obtain ⟨es, rfl, hes, hshape⟩ := shape_of_front hys hlexeme
  cases hshape with
  | sign s hs =>
    rw [sign?_of_isWordCode (isWordCode_of_startsName hc)] at hs
    cases hs
  | str raw hq hraw hcs =>
    subst hq
    exact absurd (isWordCode_of_startsName hc) not_isWordCode_quote
  | int hdigit hcs =>
    rw [not_isDigit_of_startsName hc] at hdigit
    cases hdigit
  | word _ hcs => exact Nat.succ_le_succ (length_le_takeWhile hes hcs)

/-- **What the lexer takes for a lexeme is the longest text that is a token,** and its token is the
one that this text denotes. -/
theorem longest_lexeme {c : Char} {cs : List Char} {token : Token} {more : Nat}
    (h : lexeme c cs = .ok (token, more)) : ∃ xs rest, cs = xs ++ rest ∧ xs.length = more ∧
      token.Denotes (c :: xs) ∧ Longest IsLexeme (c :: xs) (c :: cs) := by
  simp only [lexeme] at h
  split at h
  · -- A sign of two characters.
    rename_i s hpair
    cases h
    obtain ⟨d, hd, hpair⟩ := Option.bind_eq_some_iff.1 hpair
    cases cs with
    | nil => cases hd
    | cons d' cs =>
      cases hd
      have hs : sign? [c, d] = some s := hpair
      refine ⟨[d], cs, rfl, rfl, ?_, ?_⟩
      · rw [sign?_eq_some.1 hs]
        exact .sign s
      · exact longest_of_sign hs (by simp [List.cons_prefix_cons]) fun _ _ _ => rfl
  · rename_i hnone
    split at h
    · -- A sign of one character, with which the next one makes no longer sign.
      rename_i s hsingle
      cases h
      have hs : sign? [c] = some s := hsingle
      refine ⟨[], cs, rfl, rfl, ?_, ?_⟩
      · rw [sign?_eq_some.1 hs]
        exact .sign s
      · refine longest_of_sign hs (by simp [List.cons_prefix_cons]) fun d hd hsome => ?_
        rw [hd, Option.bind_some] at hnone
        rw [hnone] at hsome
        cases hsome
    · split at h
      · cases h
      split at h
      · cases h
      split at h
      · rename_i hquote
        subst hquote
        split at h
        · rename_i raw hraw
          cases h
          obtain ⟨hq, rest, hcs⟩ := isQuoted_of_quoted? hraw
          refine ⟨raw ++ ['"'], rest, hcs.symm, by simp, .str hq, longest_of_quoted? hraw⟩
        · cases h
      split at h
      · rename_i hdigit
        split at h
        · rename_i hmax
          cases h
          refine ⟨cs.takeWhile Char.isDigit, cs.dropWhile Char.isDigit,
            List.takeWhile_append_dropWhile.symm, by simp, ?_, longest_of_isDigit hdigit hmax⟩
          exact .int (List.forall_mem_cons.2 ⟨hdigit, fun d hd => List.mem_takeWhile_imp hd⟩) hmax
        · cases h
      split at h
      · rename_i hname
        cases h
        refine ⟨cs.takeWhile continuesName, cs.dropWhile continuesName,
          List.takeWhile_append_dropWhile.symm, by simp, ?_, longest_of_startsName hname⟩
        exact denotes_word hname fun d hd => List.mem_takeWhile_imp hd
      · cases h

/-- **One lexeme.** Where no gap starts, the lexer stops, or it takes the longest text that is a
token and goes on after it. -/
theorem scan_cons (before : List Char) {c : Char} {cs : List Char} (hb : Text.isBlank c = false)
    (hslash : ¬ (c = '/' ∧ cs.head? = some '/')) :
    (∃ stop, lexeme c cs = .error stop ∧ scan 0 (.ofPrefix before) (c :: cs) =
      .error ⟨.lexical stop.fault, .ofPrefix (before ++ (c :: cs).take stop.offset)⟩) ∨
    ∃ token xs rest, cs = xs ++ rest ∧ lexeme c cs = .ok (token, xs.length) ∧
      token.Denotes (c :: xs) ∧ Longest IsLexeme (c :: xs) (c :: cs) ∧
      scan 0 (.ofPrefix before) (c :: cs) =
        (scan 0 (.ofPrefix (before ++ (c :: xs))) rest).map (⟨token, .ofPrefix before⟩ :: ·) := by
  rw [scan, hb, if_neg Bool.false_ne_true, if_neg hslash]
  cases hl : lexeme c cs with
  | error stop => exact .inl ⟨stop, rfl, by simp only [Location.after_ofPrefix]⟩
  | ok r =>
    obtain ⟨token, more⟩ := r
    obtain ⟨xs, rest, rfl, rfl, htoken, hlexeme⟩ := longest_lexeme hl
    refine .inr ⟨token, xs, rest, rfl, rfl, htoken, hlexeme, ?_⟩
    simp only [scan_append, ← Location.after_cons, Location.after_ofPrefix]
    cases scan 0 (.ofPrefix (before ++ (c :: xs))) rest <;> rfl

/-! ### The whole text -/

/-- The text `cs`, which stands after `before`, is a gap and a lexeme by turns, each as long as it
can be; `tokens` are the tokens of the lexemes and the end mark, each where it starts. -/
inductive Decomposes : List Char → List Char → List Spanned → Prop where
  | last {before gap} (hgap : IsGap gap) :
      Decomposes before gap [⟨.eof, .ofPrefix (before ++ gap)⟩]
  | next {before gap lexeme rest : List Char} {token : Token} {tokens : List Spanned}
      (hgap : Longest IsGap gap (gap ++ lexeme ++ rest))
      (hlexeme : Longest IsLexeme lexeme (lexeme ++ rest)) (htoken : token.Denotes lexeme)
      (hrest : Decomposes (before ++ gap ++ lexeme) rest tokens) :
      Decomposes before (gap ++ lexeme ++ rest) (⟨token, .ofPrefix (before ++ gap)⟩ :: tokens)

theorem decomposes_of_scan (before cs : List Char) {tokens : List Spanned}
    (h : scan 0 (.ofPrefix before) cs = .ok tokens) : Decomposes before cs tokens := by
  induction hn : cs.length using Nat.strong_induction_on generalizing before cs tokens with
  | _ n ih =>
    subst hn
    obtain ⟨gap, rest, rfl, hgap, hscan, hrest⟩ := exists_longest_gap cs
    rw [hscan, Location.after_ofPrefix] at h
    cases rest with
    | nil =>
      cases h
      rw [List.append_nil] at hgap ⊢
      exact .last hgap.holds
    | cons c cs =>
      obtain ⟨hb, hslash⟩ := hrest c cs rfl
      obtain ⟨stop, -, hstep⟩ | ⟨token, xs, rest, rfl, -, htoken, hlexeme, hstep⟩ :=
        scan_cons (before ++ gap) hb hslash
      · rw [hstep] at h
        cases h
      · rw [hstep] at h
        cases hs : scan 0 (.ofPrefix (before ++ gap ++ (c :: xs))) rest with
        | error e =>
          rw [hs] at h
          cases h
        | ok tokens' =>
          rw [hs] at h
          cases h
          have hdecomposes := ih rest.length (by simp; omega) _ rest hs rfl
          have htext : gap ++ c :: (xs ++ rest) = gap ++ (c :: xs) ++ rest := by simp
          rw [htext] at hgap ⊢
          exact .next hgap hlexeme htoken hdecomposes

/-! ### There is one decomposition -/

/-- Read alone, the text of a token is one lexeme. So no text denotes two tokens. -/
theorem lexeme_of_denotes {token : Token} {c : Char} {cs : List Char}
    (h : token.Denotes (c :: cs)) : lexeme c cs = .ok (token, cs.length) := by
  have hword : ∀ (hc : startsName c) (hcs : ∀ d ∈ cs, continuesName d),
      lexeme c cs = .ok (word (c :: cs), cs.length) := by
    intro hc hcs
    rw [lexeme_of_isWordCode (isWordCode_of_startsName hc), not_isDigit_of_startsName hc,
      if_neg Bool.false_ne_true, if_pos hc]
    simp only [List.takeWhile_eq_self_iff.2 hcs, List.length_cons, Nat.add_sub_cancel]
  generalize hxs : c :: cs = xs at h
  cases h with
  | keyword k =>
    obtain ⟨c', cs', hk, hc, hcs⟩ := keyword_text k
    rw [hk] at hxs
    cases hxs
    have hname : Keyword.ofName? (String.ofList (c :: cs)) = some k := by
      rw [← hk, String.ofList_toList]
      cases k <;> rfl
    rw [hword hc hcs]
    simp only [word, hname]
  | name hc hcs hk =>
    cases hxs
    have hname : Keyword.ofName? (String.ofList (c :: cs)) = none :=
      List.find?_eq_none.2 fun k _ => by simpa using hk k
    rw [hword hc hcs]
    simp only [word, hname]
  | int hdigits hmax =>
    cases hxs
    obtain ⟨hc, hcs⟩ := List.forall_mem_cons.1 hdigits
    rw [lexeme_of_isWordCode (isWordCode_of_isDigit hc), if_pos hc]
    simp only [List.takeWhile_eq_self_iff.2 hcs, if_pos hmax, List.length_cons,
      Nat.add_sub_cancel]
  | @str raw hraw =>
    cases hxs
    have hpair : (raw ++ ['"']).head?.bind (Sign.pair? '"') = none := by
      cases (raw ++ ['"']).head? <;> rfl
    have hsingle : Sign.single? '"' = none := rfl
    simp only [lexeme, hpair, hsingle, quoted?_of_isQuoted hraw [], Char.reduceEq, if_false,
      if_true, List.length_append, List.length_singleton]
  | sign s => cases s <;> (cases hxs; rfl)

theorem denotes_unique {token token' : Token} {xs : List Char} (h : token.Denotes xs)
    (h' : token'.Denotes xs) : token = token' := by
  obtain ⟨c, cs, rfl, -⟩ := shape_of_denotes h
  have hsame := (lexeme_of_denotes h).symm.trans (lexeme_of_denotes h')
  cases hsame
  rfl

theorem not_longest_gap_of_isGap {gap lexeme rest : List Char} {token : Token}
    (h : IsGap (gap ++ lexeme ++ rest)) (htoken : token.Denotes lexeme) :
    ¬ Longest IsGap gap (gap ++ lexeme ++ rest) := by
  intro hgap
  obtain ⟨c, cs, rfl, -⟩ := shape_of_denotes htoken
  have hle := hgap.length_le _ List.prefix_rfl h
  simp at hle

/-- A text has one decomposition at most. -/
theorem Decomposes.unique {before cs : List Char} {tokens tokens' : List Spanned}
    (h : Decomposes before cs tokens) (h' : Decomposes before cs tokens') : tokens = tokens' := by
  induction h generalizing tokens' with
  | last hgap =>
    cases h' with
    | last => rfl
    | next hgap' hlexeme' htoken' hrest' =>
      exact absurd hgap' (not_longest_gap_of_isGap hgap htoken')
  | @next before gap lexeme rest token tokens hgap hlexeme htoken hrest ih =>
    generalize hcs : gap ++ lexeme ++ rest = cs at h'
    cases h' with
    | last hgap' =>
      rw [← hcs] at hgap'
      exact absurd hgap (not_longest_gap_of_isGap hgap' htoken)
    | @next _ gap' lexeme' rest' token' tokens' hgap' hlexeme' htoken' hrest' =>
      obtain rfl : gap = gap' := (hcs ▸ hgap).unique hgap'
      have hrests : lexeme ++ rest = lexeme' ++ rest' := by simpa using hcs
      obtain rfl : lexeme = lexeme' := (hrests ▸ hlexeme).unique hlexeme'
      obtain rfl : rest = rest' := List.append_cancel_left hrests
      rw [denotes_unique htoken htoken', ih hrest']

end Lexer

/-- **The tokens of a source text.** If a text has tokens, it is a gap and a lexeme by turns, each
as long as it can be; the tokens are those of the lexemes and one end mark, each at the place where
it starts. No other tokens belong to the text in this way. -/
theorem Token.decomposes_of_source {source : String} {tokens : List Spanned}
    (h : Token.ofSource source = .ok tokens) : Lexer.Decomposes [] source.toList tokens ∧
      ∀ tokens', Lexer.Decomposes [] source.toList tokens' → tokens' = tokens := by
  have hdecomposes : Lexer.Decomposes [] source.toList tokens := Lexer.decomposes_of_scan [] _ h
  exact ⟨hdecomposes, fun tokens' h' => h'.unique hdecomposes⟩

/-- A keyword and a name that starts like one, a comment with a quote in it, two signs of which the
first is as long as it can be, and a string with a quote in it. -/
theorem Token.decomposes_of_source_signs : ∃ source tokens,
    source = "if iffy // \"\n\t-->=\"a\\\"b\"07" ∧
    tokens = [⟨.keyword .if_, ⟨1, 1⟩⟩, ⟨.name "iffy", ⟨1, 4⟩⟩, ⟨.sign .minusMinus, ⟨2, 2⟩⟩,
      ⟨.sign .greaterEqual, ⟨2, 4⟩⟩, ⟨.str "a\\\"b", ⟨2, 6⟩⟩, ⟨.int 7, ⟨2, 12⟩⟩, ⟨.eof, ⟨2, 14⟩⟩] ∧
    Token.ofSource source = .ok tokens ∧ Lexer.Decomposes [] source.toList tokens ∧
    ∀ tokens', Lexer.Decomposes [] source.toList tokens' → tokens' = tokens := by
  have h : Token.ofSource "if iffy // \"\n\t-->=\"a\\\"b\"07" =
      .ok [⟨.keyword .if_, ⟨1, 1⟩⟩, ⟨.name "iffy", ⟨1, 4⟩⟩, ⟨.sign .minusMinus, ⟨2, 2⟩⟩,
        ⟨.sign .greaterEqual, ⟨2, 4⟩⟩, ⟨.str "a\\\"b", ⟨2, 6⟩⟩, ⟨.int 7, ⟨2, 12⟩⟩,
        ⟨.eof, ⟨2, 14⟩⟩] := by
    cbv
  exact ⟨_, _, rfl, rfl, h, decomposes_of_source h⟩

end GLang
