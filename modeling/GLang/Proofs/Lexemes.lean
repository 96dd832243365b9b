import Mathlib
import GLang.Token.Lexer

/-!
# The tokens of a text, piece by piece

`Lexer.Lexes cs ts`: the tokens of the text `cs` are `ts`, wherever it starts. A text is taken apart
from its front, and as a lexeme is as long as it can be, each rule says what may follow.

* `Lexer.lexes_lexeme`: a lexeme and the text after it. The other rules follow from it, one for each
  kind of lexeme.
* `Token.IsLexical`: the tokens that a text can have. `Lexer.isLexical_of_scan`: it has no others.
-/

namespace GLang

/-! ### Tokens that a text can have -/

/-- A name that is not a keyword, a literal that is not too large, or the text of a string literal,
which ends at the first quote that no backslash takes with it. -/
def Token.IsLexical : Token → Prop
  | .name x => ∃ c cs, x.toList = c :: cs ∧ Lexer.startsName c ∧ (∀ d ∈ cs, Lexer.continuesName d) ∧
      Keyword.ofName? x = none
  | .int n => 0 ≤ n ∧ n ≤ Lexer.maxLiteral
  | .str raw => ∃ cs, Lexer.quoted? cs = some raw.toList
  | .keyword _ | .sign _ | .eof => True

namespace Lexer

variable {c d : Char} {cs xs ys : List Char} {ts : List Token}

/-! ### Characters -/

theorem toNat_of_isDigit (h : c.isDigit) : 48 ≤ c.toNat ∧ c.toNat ≤ 57 := by
  simp only [Char.isDigit, Bool.and_eq_true, decide_eq_true_eq] at h
  exact h

theorem toNat_of_startsName (h : startsName c) : 65 ≤ c.toNat ∧ c.toNat ≤ 122 := by
  simp only [startsName, Char.isAlpha, Char.isUpper, Char.isLower, Bool.or_eq_true,
    Bool.and_eq_true, decide_eq_true_eq, beq_iff_eq] at h
  rcases h with (⟨hl, hu⟩ | ⟨hl, hu⟩) | rfl
  · exact ⟨hl, Nat.le_trans hu (by decide)⟩
  · exact ⟨Nat.le_trans (by decide) hl, hu⟩
  · decide

theorem not_isDigit_of_startsName (h : startsName c) : c.isDigit = false := by
  refine Bool.eq_false_iff.2 fun hd => ?_
  have hletter := toNat_of_startsName h
  have hdigit := toNat_of_isDigit hd
  omega

/-- The codes of digits, letters and the underscore, and of characters that G does not use. -/
def IsWordCode (n : Nat) : Prop :=
  48 ≤ n ∧ n ≤ 57 ∨ 65 ≤ n ∧ n ≤ 122

theorem IsWordCode.ne (h : IsWordCode c.toNat) (hd : ¬ IsWordCode d.toNat) : c ≠ d :=
  fun hcd => hd (hcd ▸ h)

theorem IsWordCode.not_isBlank (h : IsWordCode c.toNat) : Text.isBlank c = false := by
  unfold IsWordCode at h
  simp [Text.isBlank]
  omega

theorem IsWordCode.single? (h : IsWordCode c.toNat) : Sign.single? c = none := by
  unfold Sign.single?
  split <;> first | rfl | exact absurd h (by unfold IsWordCode; decide)

theorem IsWordCode.pair? (h : IsWordCode c.toNat ∨ IsWordCode d.toNat) : Sign.pair? c d = none := by
  unfold Sign.pair?
  split <;> first | rfl | exact absurd h (by unfold IsWordCode; decide)

/-! ### Texts -/

/-- The tokens of the text `cs` are `ts`, wherever it starts. -/
def Lexes (cs : List Char) (ts : List Token) : Prop :=
  ∀ p, ∃ tokens, scan 0 p cs = .ok tokens ∧ tokens.map Spanned.token = ts

theorem lexes_nil : Lexes [] [.eof] :=
  fun p => ⟨[⟨.eof, p⟩], rfl, rfl⟩

theorem lexes_blank (h : Lexes cs ts) : Lexes (' ' :: cs) ts := by
  intro p
  obtain ⟨tokens, hscan, htokens⟩ := h (p.next ' ')
  exact ⟨tokens, hscan, htokens⟩

/-- A part of a text that belongs to a lexeme is walked over. -/
theorem scan_append (xs ys : List Char) :
    ∀ p, scan xs.length p (xs ++ ys) = scan 0 (p.after xs) ys := by
  induction xs with
  | nil => exact fun p => rfl
  | cons x xs ih => exact fun p => ih (p.next x)

theorem lexes_lexeme {token : Token} (xs : List Char) (hb : Text.isBlank c = false)
    (hc : c = '/' → (xs ++ ys).head? ≠ some '/')
    (hl : lexeme c (xs ++ ys) = .ok (token, xs.length)) (h : Lexes ys ts) :
    Lexes (c :: (xs ++ ys)) (token :: ts) := by
  intro p
  obtain ⟨tokens, hscan, htokens⟩ := h ((p.next c).after xs)
  refine ⟨⟨token, p⟩ :: tokens, ?_, by rw [List.map_cons, htokens]⟩
  rw [scan, hb, if_neg Bool.false_ne_true, if_neg fun h => hc h.1 h.2, hl]
  simp only [scan_append, hscan]
  rfl

/-! ### Signs -/

theorem not_isBlank_of_single? {s : Sign} (h : Sign.single? c = some s) :
    Text.isBlank c = false := by
  unfold Sign.single? at h
  split at h <;> first | cases h; done | rfl

theorem not_isBlank_of_pair? {s : Sign} (h : Sign.pair? c d = some s) :
    Text.isBlank c = false := by
  unfold Sign.pair? at h
  split at h <;> first | cases h; done | rfl

/-- A sign of one character, with which the next one makes neither a sign nor a comment. -/
theorem lexes_single {s : Sign} (hs : Sign.single? c = some s)
    (hp : cs.head?.bind (Sign.pair? c) = none) (hc : c = '/' → cs.head? ≠ some '/')
    (h : Lexes cs ts) : Lexes (c :: cs) (.sign s :: ts) := by
  refine lexes_lexeme [] (not_isBlank_of_single? hs) hc ?_ h
  rw [lexeme, List.nil_append, hp, hs]
  rfl

/-- A sign that is no part of a longer one. -/
theorem lexes_alone {s : Sign} (hs : Sign.single? c = some s) (hp : ∀ d, Sign.pair? c d = none)
    (hc : c ≠ '/') (h : Lexes cs ts) : Lexes (c :: cs) (.sign s :: ts) := by
  refine lexes_single hs ?_ (fun hslash => absurd hslash hc) h
  cases cs.head? with
  | none => rfl
  | some d => exact hp d

theorem lexes_openParen (h : Lexes cs ts) : Lexes ('(' :: cs) (.sign .openParen :: ts) :=
  lexes_alone rfl (fun _ => rfl) (by decide) h

theorem lexes_closeParen (h : Lexes cs ts) : Lexes (')' :: cs) (.sign .closeParen :: ts) :=
  lexes_alone rfl (fun _ => rfl) (by decide) h

theorem lexes_comma (h : Lexes cs ts) : Lexes (',' :: cs) (.sign .comma :: ts) :=
  lexes_alone rfl (fun _ => rfl) (by decide) h

theorem lexes_star (h : Lexes cs ts) : Lexes ('*' :: cs) (.sign .star :: ts) :=
  lexes_alone rfl (fun _ => rfl) (by decide) h

theorem lexes_pair {s : Sign} (hs : Sign.pair? c d = some s) (h : Lexes cs ts) :
    Lexes (c :: d :: cs) (.sign s :: ts) := by
  refine lexes_lexeme [d] (not_isBlank_of_pair? hs) ?_ ?_ h
  · rintro rfl
    cases hs
  · simp [lexeme, hs]

/-! ### Words -/

theorem takeWhile_append {p : Char → Bool} (hxs : ∀ d ∈ xs, p d)
    (hys : ∀ d, ys.head? = some d → p d = false) : (xs ++ ys).takeWhile p = xs := by
  rw [List.takeWhile_append_of_pos hxs]
  cases ys with
  | nil => simp
  | cons d ys => simp [hys d rfl]

/-- A lexeme that starts with a letter or a digit is neither a sign nor a string. -/
theorem lexeme_of_isWordCode (h : IsWordCode c.toNat) : lexeme c cs =
    if c.isDigit then
      let digits := c :: cs.takeWhile Char.isDigit
      let n := Text.value digits
      if n ≤ maxLiteral then .ok (.int n, digits.length - 1)
      else .error ⟨.tooLarge (String.ofList digits), 0⟩
    else if startsName c then
      let letters := c :: cs.takeWhile continuesName
      .ok (word letters, letters.length - 1)
    else .error ⟨.stray c, 0⟩ := by
  have hpair : cs.head?.bind (Sign.pair? c) = none := by
    cases cs.head? with
    | none => rfl
    | some d => exact IsWordCode.pair? (.inl h)
  have hbang : c ≠ '!' := h.ne (by unfold IsWordCode; decide)
  have hbar : c ≠ '|' := h.ne (by unfold IsWordCode; decide)
  have hquote : c ≠ '"' := h.ne (by unfold IsWordCode; decide)
  simp only [lexeme, hpair, h.single?, hbang, hbar, hquote, if_false]

theorem lexes_of_isWordCode {token : Token} (xs : List Char) (hc : IsWordCode c.toNat)
    (hl : lexeme c (xs ++ ys) = .ok (token, xs.length)) (h : Lexes ys ts) :
    Lexes (c :: (xs ++ ys)) (token :: ts) :=
  lexes_lexeme xs hc.not_isBlank
    (fun hslash => absurd hslash (hc.ne (by unfold IsWordCode; decide))) hl h

theorem lexes_word (hc : startsName c) (hxs : ∀ d ∈ xs, continuesName d)
    (hys : ∀ d, ys.head? = some d → continuesName d = false) (h : Lexes ys ts) :
    Lexes (c :: (xs ++ ys)) (word (c :: xs) :: ts) := by
  have hcode : IsWordCode c.toNat := .inr (toNat_of_startsName hc)
  refine lexes_of_isWordCode xs hcode ?_ h
  rw [lexeme_of_isWordCode hcode, not_isDigit_of_startsName hc, if_neg Bool.false_ne_true,
    if_pos hc]
  simp only [takeWhile_append hxs hys, List.length_cons, Nat.add_sub_cancel]

theorem lexes_name {x : String} (hx : (Token.name x).IsLexical)
    (hys : ∀ d, ys.head? = some d → continuesName d = false) (h : Lexes ys ts) :
    Lexes (x.toList ++ ys) (.name x :: ts) := by
  obtain ⟨c, cs, hchars, hc, hcs, hkeyword⟩ := hx
  have hword : word (c :: cs) = .name x := by
    simp only [word, ← hchars, String.ofList_toList, hkeyword]
  rw [hchars, ← hword]
  exact lexes_word hc hcs hys h

/-! ### Literals -/

theorem lexes_int {n : Int} (hn : (Token.int n).IsLexical)
    (hys : ∀ d, ys.head? = some d → d.isDigit = false) (h : Lexes ys ts) :
    Lexes ((toString n).toList ++ ys) (.int n :: ts) := by
  obtain ⟨hpos, hmax⟩ := hn
  obtain ⟨n, rfl⟩ := Int.eq_ofNat_of_zero_le hpos
  have hchars : (toString (n : Int)).toList = Nat.toDigits 10 n := Nat.toList_repr
  have hdigits : ∀ d ∈ Nat.toDigits 10 n, d.isDigit := fun d hd =>
    Nat.isDigit_of_mem_toDigits (by decide) (by decide) hd
  have hvalue : Text.value (Nat.toDigits 10 n) = n := Nat.ofDigitChars_ten_toDigits
  rw [hchars]
  cases hcs : Nat.toDigits 10 n with
  | nil => exact absurd hcs Nat.toDigits_ne_nil
  | cons c cs =>
    rw [hcs] at hdigits hvalue
    obtain ⟨hc, hcs⟩ := List.forall_mem_cons.1 hdigits
    have hcode : IsWordCode c.toNat := .inl (toNat_of_isDigit hc)
    refine lexes_of_isWordCode cs hcode ?_ h
    rw [lexeme_of_isWordCode hcode, if_pos hc]
    simp only [takeWhile_append hcs hys, hvalue, List.length_cons, Nat.add_sub_cancel]
    rw [if_pos (Int.ofNat_le.1 hmax)]

/-- What is between quotes is found again, whatever stands after it. -/
theorem quoted?_append {raw : List Char} (h : quoted? cs = some raw) (ys : List Char) :
    quoted? (raw ++ '"' :: ys) = some raw := by
  fun_induction quoted? cs generalizing raw with
  | case1 => cases h
  | case2 => cases h; rfl
  | case3 => cases h
  | case4 c cs ih =>
    obtain ⟨raw, hraw, rfl⟩ := Option.map_eq_some_iff.1 h
    simp [quoted?, ih hraw]
  | case5 c cs hquote hfeed hslash ih =>
    obtain ⟨raw, hraw, rfl⟩ := Option.map_eq_some_iff.1 h
    have hne : c ≠ '\\' := by
      rintro rfl
      cases cs with
      | nil => cases hraw
      | cons d ds => exact hslash d ds rfl rfl
    rw [List.cons_append, quoted?, ih hraw]
    · rfl
    · exact hquote
    · exact hfeed
    · exact fun _ _ hc => absurd hc hne

theorem lexes_str {raw : String} (hraw : (Token.str raw).IsLexical) (h : Lexes ys ts) :
    Lexes ('"' :: (raw.toList ++ '"' :: ys)) (.str raw :: ts) := by
  obtain ⟨cs, hcs⟩ := hraw
  have hquoted : quoted? (raw.toList ++ ['"'] ++ ys) = some raw.toList := by
    rw [List.append_assoc]
    exact quoted?_append hcs ys
  have hpair : (raw.toList ++ ['"'] ++ ys).head?.bind (Sign.pair? '"') = none := by
    cases (raw.toList ++ ['"'] ++ ys).head? <;> rfl
  have hl : lexeme '"' (raw.toList ++ ['"'] ++ ys) =
      .ok (.str raw, (raw.toList ++ ['"']).length) := by
    have hsingle : Sign.single? '"' = none := rfl
    simp only [lexeme, hpair, hsingle, hquoted, Char.reduceEq, if_false, if_true,
      String.ofList_toList, List.length_append, List.length_singleton]
  have hstr : Lexes ('"' :: (raw.toList ++ ['"'] ++ ys)) (.str raw :: ts) :=
    lexes_lexeme (raw.toList ++ ['"']) rfl (fun hslash => absurd hslash (by decide)) hl h
  rwa [List.append_assoc] at hstr

/-! ### All tokens of a text -/

/-- The tokens of a text are lexemes, and the end mark is the last of them. -/
theorem exists_lexemes_of_scan {cs : List Char} :
    ∀ {skip : Nat} {p : Location} {tokens : List Spanned}, scan skip p cs = .ok tokens →
      ∃ ts, tokens.map Spanned.token = ts ++ [.eof] ∧
        ∀ t ∈ ts, ∃ c ds more, lexeme c ds = .ok (t, more) := by
  induction cs with
  | nil =>
    intro skip p tokens h
    cases h
    exact ⟨[], rfl, nofun⟩
  | cons c cs ih =>
    intro skip p tokens h
    cases skip with
    | succ skip => exact ih h
    | zero =>
      rw [scan] at h
      split at h
      · exact ih h
      · split at h
        · exact ih h
        · split at h
          · rename_i token more hl
            cases hrest : scan more (p.next c) cs with
            | error e =>
              rw [hrest] at h
              cases h
            | ok rest =>
              rw [hrest] at h
              cases h
              obtain ⟨ts, hts, hlexemes⟩ := ih hrest
              exact ⟨token :: ts, by rw [List.map_cons, hts, List.cons_append],
                List.forall_mem_cons.2 ⟨⟨c, cs, more, hl⟩, hlexemes⟩⟩
          · cases h

theorem isLexical_word (hc : startsName c) (hxs : ∀ d ∈ xs, continuesName d) :
    (word (c :: xs)).IsLexical ∧ word (c :: xs) ≠ .eof := by
  simp only [word]
  split
  · exact ⟨trivial, nofun⟩
  · rename_i hkeyword
    exact ⟨⟨c, xs, String.toList_ofList, hc, hxs, hkeyword⟩, nofun⟩

/-- A lexeme is a token that a text can have. It is never the end mark. -/
theorem isLexical_lexeme {token : Token} {more : Nat} (h : lexeme c cs = .ok (token, more)) :
    token.IsLexical ∧ token ≠ .eof := by
  simp only [lexeme] at h
  split at h
  · cases h
    exact ⟨trivial, nofun⟩
  · split at h
    · cases h
      exact ⟨trivial, nofun⟩
    · split at h
      · cases h
      split at h
      · cases h
      split at h
      · split at h
        · rename_i raw hraw
          cases h
          exact ⟨⟨cs, by rw [String.toList_ofList]; exact hraw⟩, nofun⟩
        · cases h
      split at h
      · split at h
        · rename_i hmax
          cases h
          exact ⟨⟨Int.natCast_nonneg _, Int.ofNat_le.2 hmax⟩, nofun⟩
        · cases h
      split at h
      · rename_i hname
        cases h
        exact isLexical_word hname fun d hd => List.mem_takeWhile_imp hd
      · cases h

/-- **The tokens of a text:** its end mark is its last token and its only one, and the others are
tokens that a text can have. -/
theorem isLexical_of_scan {skip : Nat} {p : Location} {tokens : List Spanned}
    (h : scan skip p cs = .ok tokens) :
    ∃ ts, tokens.map Spanned.token = ts ++ [.eof] ∧ .eof ∉ ts ∧ ∀ t ∈ ts, t.IsLexical := by
  obtain ⟨ts, hts, hlexemes⟩ := exists_lexemes_of_scan h
  refine ⟨ts, hts, fun heof => ?_, fun t ht => ?_⟩
  · obtain ⟨c, ds, more, hl⟩ := hlexemes _ heof
    exact (isLexical_lexeme hl).2 rfl
  · obtain ⟨c, ds, more, hl⟩ := hlexemes t ht
    exact (isLexical_lexeme hl).1

end Lexer

end GLang
