import GLang.Proofs.Acceptance

/-!
# The written form of an expression can be read again

* `Expr.Readable`: the trees that are read from texts. `Expr.readable_of_isExpr`: no others are.
* `Expr.Rereads e ts`: the written form of `e` has the tokens `ts`, and these are read as `e`. Each
  kind of expression has one lemma. The written form of every expression is a unary one, as all
  binary operators and casts are in parentheses.
* `Expr.readable_iff_parser_text`: so the written form of a tree is read as the tree.
-/

namespace GLang

open Grammar Lexer

-- The equations of the written form are made once, here, and not by each proof that needs them.
attribute [simp] Expr.text Expr.argsText

/-! ### Trees that are read from texts -/

/-- Names are not keywords, literals are not too large, texts of strings can be quoted, only
variables are stepped, and the targets of casts are spelled as types. -/
inductive Expr.Readable : Expr → Prop where
  | int {n : Int} (h : (Token.int n).IsLexical) : Readable (.int n)
  | str {raw : String} (h : (Token.str raw).IsLexical) : Readable (.str raw)
  | var {x : String} (h : (Token.name x).IsLexical) : Readable (.var x)
  | addressOf {x : String} (h : (Token.name x).IsLexical) : Readable (.addressOf x)
  | deref {e : Expr} (h : Readable e) : Readable (.deref e)
  | cast {e : Expr} {ts : List Token} {target : String} (h : Readable e) (ht : IsType ts target)
      (hts : ∀ t ∈ ts, t.IsLexical) : Readable (.cast e target)
  | binary {op : BinOp} {l r : Expr} (hl : Readable l) (hr : Readable r) : Readable (.binary op l r)
  | negate {e : Expr} (h : Readable e) : Readable (.negate e)
  | step {op : StepOp} {order : StepOrder} {x : String} (h : (Token.name x).IsLexical) :
      Readable (.step op order (.var x))
  | call {f : String} {args : List Expr} (hf : (Token.name f).IsLexical)
      (hargs : ∀ e ∈ args, Readable e) : Readable (.call f args)

theorem BinOp.exists_isOperator (op : BinOp) : ∃ level s, IsOperator level s op := by
  cases op <;> exact ⟨_, _, by constructor⟩

theorem StepOp.exists_isStep (op : StepOp) : ∃ s, IsStep s op := by
  cases op <;> exact ⟨_, by constructor⟩

/-- The items of a list are not longer than the list. -/
theorem Grammar.Separated.and_length {α : Type} {R : List Token → α → Prop} {ts : List Token}
    {as : List α} {n : Nat} (h : Separated R ts as) (hn : ts.length < n) :
    Separated (fun us a => R us a ∧ us.length < n) ts as := by
  induction h with
  | one ha => exact .one ⟨ha, hn⟩
  | cons ha _ ih =>
    rw [List.length_append, List.length_cons] at hn
    exact .cons ⟨ha, by omega⟩ (ih (by omega))

theorem Grammar.Listed.and_length {α : Type} {R : List Token → α → Prop} {ts : List Token}
    {as : List α} {n : Nat} (h : Listed R ts as) (hn : ts.length < n) :
    Listed (fun us a => R us a ∧ us.length < n) ts as := by
  cases h with
  | nil => exact .nil
  | some h => exact .some (h.and_length hn)

namespace Expr

mutual

/-- **A tree that the grammar derives from the tokens of a text is readable.** -/
theorem readable_of_isExpr {level : Precedence} {ts : List Token} {e : Expr} :
    IsExpr level ts e → (∀ t ∈ ts, t.IsLexical) → e.Readable
  | .tighter h, hts => readable_of_isExpr h hts
  | .binary _ hl hr, hts => by
    simp only [List.forall_mem_append, List.forall_mem_cons] at hts
    exact .binary (readable_of_isExpr hl hts.1) (readable_of_isExpr hr hts.2.2)
  | .cast he ht, hts => by
    simp only [List.forall_mem_append, List.forall_mem_cons] at hts
    exact .cast (readable_of_isExpr he hts.1) ht hts.2.2
  | .negate h, hts => .negate (readable_of_isExpr h (List.forall_mem_cons.1 hts).2)
  | .deref h, hts => .deref (readable_of_isExpr h (List.forall_mem_cons.1 hts).2)
  | .addressOf x, hts => .addressOf (hts (.name x) (by simp))
  | .stepBefore x _, hts => .step (hts (.name x) (by simp))
  | .stepAfter x _, hts => .step (hts (.name x) (by simp))
  | .call f h, hts =>
    .call (hts (.name f) (by simp))
      (readable_of_listed h fun t ht => hts t (by simp [parens, ht]))
  | .int n, hts => .int (hts (.int n) (by simp))
  | .str raw, hts => .str (hts (.str raw) (by simp))
  | .var x, hts => .var (hts (.name x) (by simp))
  | .parens h, hts => readable_of_isExpr h fun t ht => hts t (by simp [parens, ht])

theorem readable_of_listed {ts : List Token} {es : List Expr} :
    Listed (IsExpr .or) ts es → (∀ t ∈ ts, t.IsLexical) → ∀ e ∈ es, e.Readable
  | .nil, _ => nofun
  | .some h, hts => readable_of_separated h hts

theorem readable_of_separated {ts : List Token} {es : List Expr} :
    Separated (IsExpr .or) ts es → (∀ t ∈ ts, t.IsLexical) → ∀ e ∈ es, e.Readable
  | .one h, hts => List.forall_mem_singleton.2 (readable_of_isExpr h hts)
  | .cons h hs, hts => by
    simp only [List.forall_mem_append, List.forall_mem_cons] at hts
    exact List.forall_mem_cons.2 ⟨readable_of_isExpr h hts.1, readable_of_separated hs hts.2.2⟩

end

/-! ### Written forms -/

open GLang.Parser

variable {ts us : List Token} {ks : List Token} {k : List Char} {e l r : Expr} {x : String}

/-- What stands after the written form of an expression in a larger one. -/
def Delimits (k : List Char) : Prop :=
  ∀ d, k.head? = some d → d = ' ' ∨ d = ')' ∨ d = ','

theorem Delimits.not_continuesName (h : Delimits k) :
    ∀ d, k.head? = some d → continuesName d = false := by
  intro d hd
  rcases h d hd with rfl | rfl | rfl <;> decide

theorem Delimits.not_isDigit (h : Delimits k) : ∀ d, k.head? = some d → d.isDigit = false := by
  intro d hd
  rcases h d hd with rfl | rfl | rfl <;> decide

theorem delimits_blank : Delimits (' ' :: k) :=
  fun _ hd => .inl (Option.some.inj hd).symm

theorem delimits_closeParen : Delimits (')' :: k) :=
  fun _ hd => .inr (.inl (Option.some.inj hd).symm)

theorem delimits_comma : Delimits (',' :: k) :=
  fun _ hd => .inr (.inr (Option.some.inj hd).symm)

theorem lexes_step {op : StepOp} {s : Sign} (hop : IsStep s op) (h : Lexes k ks) :
    Lexes (op.text.toList ++ k) (.sign s :: ks) := by
  cases hop <;> exact lexes_pair rfl h

/-- An operator and the blank after it. -/
theorem lexes_operator {level : Precedence} {s : Sign} {op : BinOp} (hop : IsOperator level s op)
    (h : Lexes k ks) : Lexes (op.text.toList ++ ' ' :: k) (.sign s :: ks) := by
  have hblank := lexes_blank h
  cases hop with
  | or | and | equal | notEqual | lessEqual | greaterEqual => exact lexes_pair rfl hblank
  | less | greater | add | subtract | multiply | divide => exact lexes_single rfl rfl nofun hblank

theorem lexes_as (h : Lexes (' ' :: k) ks) :
    Lexes ('a' :: 's' :: ' ' :: k) (.keyword .as_ :: ks) := by
  have hword : word ['a', 's'] = .keyword .as_ := by decide +kernel
  have hs : ∀ d ∈ ['s'], continuesName d := List.forall_mem_singleton.2 rfl
  rw [← hword]
  refine lexes_word rfl hs (fun d hd => ?_) h
  cases hd
  rfl

theorem toList_array (n : Int) : (s!"({n})").toList = '(' :: ((toString n).toList ++ [')']) := by
  show ("(" ++ toString n ++ ")").toList = _
  simp

/-- The suffixes of a type. What follows does not matter, as they end with signs. -/
theorem lexes_suffixes {suffixes : List String} (h : Many IsSuffix ts suffixes)
    (hts : ∀ t ∈ ts, t.IsLexical) (hlex : Lexes k ks) :
    Lexes ((String.join suffixes).toList ++ k) (ts ++ ks) := by
  induction h with
  | nil => simpa using hlex
  | @cons ts us suffix suffixes hsuffix _ ih =>
    obtain ⟨hts, hus⟩ := List.forall_mem_append.1 hts
    cases hsuffix with
    | pointer => simpa [String.join_cons] using lexes_star (ih hus)
    | array n =>
      have hn := lexes_int (hts (.int n) (by simp [parens])) ?_ (lexes_closeParen (ih hus))
      · rw [String.join_cons, String.toList_append, toList_array]
        simpa [parens] using lexes_openParen hn
      · intro d hd
        cases hd
        rfl

/-- No suffix goes on with a name. -/
theorem not_continuesName_suffixes {suffixes : List String} (h : Many IsSuffix ts suffixes)
    (hk : ∀ d, k.head? = some d → continuesName d = false) :
    ∀ d, ((String.join suffixes).toList ++ k).head? = some d → continuesName d = false := by
  intro d hd
  cases h with
  | nil => exact hk d (by simpa using hd)
  | cons hsuffix _ =>
    cases hsuffix with
    | pointer =>
      rw [String.join_cons, String.toList_append] at hd
      cases hd
      rfl
    | array n =>
      rw [String.join_cons, String.toList_append, toList_array] at hd
      cases hd
      rfl

theorem lexes_type {target : String} (h : IsType ts target) (hts : ∀ t ∈ ts, t.IsLexical)
    (hk : ∀ d, k.head? = some d → continuesName d = false) (hlex : Lexes k ks) :
    Lexes (target.toList ++ k) (ts ++ ks) := by
  obtain ⟨x, h⟩ := h
  obtain ⟨hx, hts⟩ := List.forall_mem_cons.1 hts
  have hname := lexes_name hx (not_continuesName_suffixes h hk) (lexes_suffixes h hts hlex)
  simpa using hname

/-- The written form of `e` has the tokens `ts`, and these are read as `e`. -/
structure Rereads (e : Expr) (ts : List Token) : Prop where
  lexes : ∀ k ks, Delimits k → Lexes k ks → Lexes (e.text.toList ++ k) (ts ++ ks)
  takes : ∀ s bound t rest, ts.length ≤ bound.length → StepOp.ofToken? t = none →
    t ≠ .sign .openParen → Takes (unary (s :: bound)) ts (t :: rest) e
  first : ∃ t us, ts = t :: us ∧ t ≠ .sign .closeParen

namespace Rereads

variable {bound : List Spanned} {t : Token} {rest : List Token}

theorem takes_unary (h : Rereads e ts) (hb : ts.length < bound.length)
    (hstep : StepOp.ofToken? t = none) (hopen : t ≠ .sign .openParen) :
    Takes (unary bound) ts (t :: rest) e := by
  cases bound with
  | nil => cases hb
  | cons s bound => exact h.takes s bound t rest (Nat.le_of_lt_succ hb) hstep hopen

theorem takes_expression (h : Rereads e ts) (hb : ts.length < bound.length) (ht : Closes t) :
    Takes (levelsOver (unary bound)) ts (t :: rest) e := by
  refine takes_levels (takes_castsOver_nil (h.takes_unary hb ?_ ?_) ht.ne_as) ht
  · rcases ht with rfl | rfl | rfl <;> rfl
  · rcases ht with rfl | rfl | rfl <;> nofun

theorem takes_inParens (h : Rereads e ts) (hb : ts.length + 2 ≤ bound.length) :
    Takes (unary bound) (parens ts) rest e := by
  cases bound with
  | nil => cases hb
  | cons s bound =>
    have hinner : ts.length < bound.length := Nat.le_of_succ_le_succ hb
    exact takes_parens (h.takes_expression hinner (.inl rfl))

/-! #### Names and literals -/

theorem int {n : Int} (h : (Token.int n).IsLexical) : Rereads (.int n) [.int n] where
  lexes k ks hk hlex := by
    rw [text]
    exact lexes_int h hk.not_isDigit hlex
  takes _ _ _ _ _ _ _ := takes_int
  first := ⟨_, _, rfl, nofun⟩

theorem str {raw : String} (h : (Token.str raw).IsLexical) : Rereads (.str raw) [.str raw] where
  lexes k ks hk hlex := by
    simpa using lexes_str h hlex
  takes _ _ _ _ _ _ _ := takes_str
  first := ⟨_, _, rfl, nofun⟩

theorem var (h : (Token.name x).IsLexical) : Rereads (.var x) [.name x] where
  lexes k ks hk hlex := by
    rw [text]
    exact lexes_name h hk.not_continuesName hlex
  takes _ _ _ _ _ hstep hopen := takes_var hstep hopen
  first := ⟨_, _, rfl, nofun⟩

theorem addressOf (h : (Token.name x).IsLexical) :
    Rereads (.addressOf x) [.sign .ampersand, .name x] where
  lexes k ks hk hlex := by
    have hname := lexes_name h hk.not_continuesName hlex
    have hpair : (x.toList ++ k).head?.bind (Sign.pair? '&') = none := by
      obtain ⟨c, cs, hchars, hc, -⟩ := h
      rw [hchars]
      exact IsWordCode.pair? (.inr (.inr (toNat_of_startsName hc)))
    simpa using lexes_single rfl hpair (fun h => absurd h (by decide)) hname
  takes _ _ _ _ _ _ _ := takes_addressOf
  first := ⟨_, _, rfl, nofun⟩

theorem stepBefore {op : StepOp} {s : Sign} (hop : IsStep s op) (h : (Token.name x).IsLexical) :
    Rereads (.step op .before (.var x)) [.sign s, .name x] where
  lexes k ks hk hlex := by
    have hname := lexes_name h hk.not_continuesName hlex
    simpa using lexes_step hop hname
  takes _ _ _ _ _ _ _ := takes_stepBefore hop
  first := ⟨_, _, rfl, by cases hop <;> nofun⟩

theorem stepAfter {op : StepOp} {s : Sign} (hop : IsStep s op) (h : (Token.name x).IsLexical) :
    Rereads (.step op .after (.var x)) [.name x, .sign s] where
  lexes k ks hk hlex := by
    have hname := lexes_name h (fun d hd => ?_) (lexes_step hop hlex)
    · simpa using hname
    · cases hop <;> cases hd <;> rfl
  takes _ _ _ _ _ _ _ := takes_stepAfter hop
  first := ⟨_, _, rfl, nofun⟩

/-! #### Operators -/

theorem deref (h : Rereads e ts) : Rereads (.deref e) (.sign .star :: parens ts) where
  lexes k ks hk hlex := by
    have hinner := h.lexes _ _ delimits_closeParen (lexes_closeParen hlex)
    simpa [parens] using lexes_star (lexes_openParen hinner)
  takes s bound t rest hb _ _ :=
    takes_deref (h.takes_inParens (Nat.le_of_succ_le (by simpa using hb)))
  first := ⟨_, _, rfl, nofun⟩

theorem negate (h : Rereads e ts) : Rereads (.negate e) (.sign .minus :: parens ts) where
  lexes k ks hk hlex := by
    have hinner := h.lexes _ _ delimits_closeParen (lexes_closeParen hlex)
    have hminus : Lexes ('-' :: '(' :: (e.text.toList ++ ')' :: k)) _ :=
      lexes_single rfl rfl (fun h => absurd h (by decide)) (lexes_openParen hinner)
    simpa [parens] using hminus
  takes s bound t rest hb _ _ :=
    takes_negate (h.takes_inParens (Nat.le_of_succ_le (by simpa using hb)))
  first := ⟨_, _, rfl, nofun⟩

theorem binary {level : Precedence} {s : Sign} {op : BinOp} (hop : IsOperator level s op)
    (hl : Rereads l ts) (hr : Rereads r us) :
    Rereads (.binary op l r) (parens (ts ++ .sign s :: us)) where
  lexes k ks hk hlex := by
    have hright := hr.lexes _ _ delimits_closeParen (lexes_closeParen hlex)
    have hleft := hl.lexes _ _ delimits_blank (lexes_blank (lexes_operator hop hright))
    simpa [parens] using lexes_openParen hleft
  takes _ bound t rest hb _ _ := by
    simp only [length_parens, List.length_append, List.length_cons] at hb
    refine takes_parens (takes_binary hop (hl.takes_unary (by omega) ?_ ?_)
      (hr.takes_unary (by omega) rfl nofun) (.inl rfl))
    · cases hop <;> rfl
    · cases hop <;> nofun
  first := ⟨_, _, rfl, nofun⟩

theorem cast {target : String} (h : Rereads e ts) (ht : IsType us target)
    (hus : ∀ t ∈ us, t.IsLexical) :
    Rereads (.cast e target) (parens (ts ++ .keyword .as_ :: us)) where
  lexes k ks hk hlex := by
    have htarget := lexes_type ht hus delimits_closeParen.not_continuesName (lexes_closeParen hlex)
    have hinner := h.lexes _ _ delimits_blank (lexes_blank (lexes_as (lexes_blank htarget)))
    simpa [parens] using lexes_openParen hinner
  takes _ bound t rest hb _ _ := by
    simp only [length_parens, List.length_append, List.length_cons] at hb
    refine takes_parens (takes_levels (takes_castsOver_one (h.takes_unary (by omega) rfl nofun) ht
      (fun c hts => ?_) nofun) (.inl rfl))
    rw [Cursor.atTypeSuffix, Cursor.current_of_tokens hts]
  first := ⟨_, _, rfl, nofun⟩

/-! #### Calls -/

/-- The written forms of arguments, with commas and blanks between them. -/
theorem exists_separated {e : Expr} {args : List Expr}
    (hargs : ∀ a ∈ e :: args, ∃ ts, Rereads a ts) :
    ∃ ts, Separated (fun ts e => Rereads e ts) ts (e :: args) ∧ ∀ k ks, Delimits k → Lexes k ks →
      Lexes ((argsText (e :: args)).toList ++ k) (ts ++ ks) := by
  induction args generalizing e with
  | nil =>
    obtain ⟨ts, hts⟩ := hargs e List.mem_cons_self
    refine ⟨ts, .one hts, fun k ks hk hlex => ?_⟩
    rw [argsText]
    exact hts.lexes k ks hk hlex
  | cons e' args ih =>
    obtain ⟨⟨ts, hts⟩, hargs⟩ := List.forall_mem_cons.1 hargs
    obtain ⟨us, hus, hlexes⟩ := ih hargs
    refine ⟨ts ++ .sign .comma :: us, .cons hts hus, fun k ks hk hlex => ?_⟩
    have hrest := hts.lexes _ _ delimits_comma (lexes_comma (lexes_blank (hlexes k ks hk hlex)))
    simpa using hrest

theorem exists_listed {args : List Expr} (hargs : ∀ a ∈ args, ∃ ts, Rereads a ts) :
    ∃ ts, Listed (fun ts e => Rereads e ts) ts args ∧ ∀ k ks, Delimits k → Lexes k ks →
      Lexes ((argsText args).toList ++ k) (ts ++ ks) := by
  cases args with
  | nil =>
    refine ⟨[], .nil, fun k ks _ hlex => ?_⟩
    simpa using hlex
  | cons e args =>
    obtain ⟨ts, hts, hlexes⟩ := exists_separated hargs
    exact ⟨ts, .some hts, hlexes⟩

theorem call {f : String} {args : List Expr} (hf : (Token.name f).IsLexical)
    (hargs : ∀ a ∈ args, ∃ ts, Rereads a ts) : ∃ ts, Rereads (.call f args) ts := by
  obtain ⟨ts, hts, hlexes⟩ := exists_listed hargs
  refine ⟨.name f :: parens ts, fun k ks hk hlex => ?_, fun s bound t rest hb _ _ => ?_,
    _, _, rfl, nofun⟩
  · have hinner := lexes_openParen (hlexes _ _ delimits_closeParen (lexes_closeParen hlex))
    have hcall := lexes_name hf (fun d hd => ?_) hinner
    · simpa [parens] using hcall
    · cases hd
      rfl
  · rw [List.length_cons, length_parens] at hb
    refine takes_call ?_ ?_ (hts.and_length (Nat.lt_of_lt_of_le (by omega) hb))
    · rintro us e t rest ⟨he, hus⟩ ht
      exact he.takes_expression hus (ht.elim (fun h => .inr (.inl h)) .inl)
    · exact fun us e he => he.1.first

end Rereads

/-- **Every readable tree is read again from its written form.** -/
theorem Readable.exists_rereads {e : Expr} (h : e.Readable) : ∃ ts, Rereads e ts := by
  induction h with
  | int h => exact ⟨_, .int h⟩
  | str h => exact ⟨_, .str h⟩
  | var h => exact ⟨_, .var h⟩
  | addressOf h => exact ⟨_, .addressOf h⟩
  | deref _ ih =>
    obtain ⟨ts, hts⟩ := ih
    exact ⟨_, hts.deref⟩
  | cast _ ht htype ih =>
    obtain ⟨ts, hts⟩ := ih
    exact ⟨_, hts.cast ht htype⟩
  | @binary op l r _ _ ihl ihr =>
    obtain ⟨ts, hts⟩ := ihl
    obtain ⟨us, hus⟩ := ihr
    obtain ⟨level, s, hop⟩ := op.exists_isOperator
    exact ⟨_, .binary hop hts hus⟩
  | negate _ ih =>
    obtain ⟨ts, hts⟩ := ih
    exact ⟨_, hts.negate⟩
  | @step op order x h =>
    obtain ⟨s, hop⟩ := op.exists_isStep
    cases order with
    | before => exact ⟨_, .stepBefore hop h⟩
    | after => exact ⟨_, .stepAfter hop h⟩
  | call hf _ ih => exact Rereads.call hf ih

/-- The tree of an expression of a source text is readable. -/
theorem readable_of_source {source : String} {tokens : List Spanned} {c c' : Cursor} {e : Expr}
    (hsource : Token.ofSource source = .ok tokens) (hc : Cursor.ofList? tokens = some c)
    (h : parser.run c = .ok (e, c')) : e.Readable := by
  obtain ⟨ts, hts, heof, hlexical⟩ := isLexical_of_scan hsource
  cases tokens with
  | nil => cases hc
  | cons t tail =>
    cases hc
    have hended : Cursor.Ended ⟨t, tail, false⟩ := ⟨rfl, ts, hts, heof⟩
    obtain ⟨⟨-, vs, hvs, -⟩, us, hus, hexpr⟩ := reads_expression hended e c' h
    have hsplit : ts = us ++ vs := by
      have htokens : ts ++ [.eof] = us ++ vs ++ [.eof] := by
        rw [List.append_assoc, ← hvs, ← hus, ← hts]
        rfl
      exact List.append_cancel_right htokens
    exact readable_of_isExpr hexpr fun t ht => hlexical t (hsplit ▸ List.mem_append_left vs ht)

/-- **Reading undoes writing.** The written form of a readable tree has tokens, and the parser reads
them as the tree, up to the end mark. Of other trees this is not so. -/
theorem readable_iff_parser_text {e : Expr} : e.Readable ↔ ∃ tokens c c',
    Token.ofSource e.text = .ok tokens ∧ Cursor.ofList? tokens = some c ∧
    parser.run c = .ok (e, c') ∧ c'.tokens = [.eof] := by
  refine ⟨fun h => ?_, fun ⟨_, _, _, hsource, hc, hrun, _⟩ => readable_of_source hsource hc hrun⟩
  obtain ⟨ts, hts⟩ := h.exists_rereads
  have hlexes := hts.lexes [] [.eof] nofun lexes_nil
  rw [List.append_nil] at hlexes
  obtain ⟨tokens, hscan, htokens⟩ := hlexes .start
  obtain ⟨us, hus, heof, -⟩ := isLexical_of_scan hscan
  cases tokens with
  | nil => simp at hus
  | cons t tail =>
    have hended : Cursor.Ended ⟨t, tail, false⟩ := ⟨rfl, us, hus, heof⟩
    have htakes : Takes parser ts [.eof] e := by
      refine takes_get fun c hc => hts.takes_expression ?_ (.inr (.inr rfl))
      rw [Cursor.length_bound, hc, List.length_append]
      omega
    obtain ⟨c', hrun, -, hlast⟩ := htakes ⟨t, tail, false⟩ hended htokens
    exact ⟨_, _, c', hscan, rfl, hrun, hlast⟩

/-- Signs that could run together, the largest literal, a quote in a string and a cast. -/
theorem readable_iff_parser_text_of_signs : ∃ e tokens c c',
    e = .binary .subtract (.negate (.int 0x7FFFFFFFFFFFFFFF))
      (.call "f" [.step .decrement .before (.var "x"), .str "\\\"",
        .cast (.addressOf "y") "u8*(16)"]) ∧
    e.text = "(-(9223372036854775807) - f(--x, \"\\\"\", (&y as u8*(16))))" ∧
    e.Readable ∧ Token.ofSource e.text = .ok tokens ∧ Cursor.ofList? tokens = some c ∧
    parser.run c = .ok (e, c') ∧ c'.tokens = [.eof] := by
  have hf : (Token.name "f").IsLexical := ⟨'f', [], rfl, rfl, nofun, by decide +kernel⟩
  have hx : (Token.name "x").IsLexical := ⟨'x', [], rfl, rfl, nofun, by decide +kernel⟩
  have hy : (Token.name "y").IsLexical := ⟨'y', [], rfl, rfl, nofun, by decide +kernel⟩
  have hu : (Token.name "u8").IsLexical :=
    ⟨'u', ['8'], rfl, rfl, List.forall_mem_singleton.2 rfl, by decide +kernel⟩
  have hstr : (Token.str "\\\"").IsLexical := ⟨['\\', '"', '"'], rfl⟩
  have htype : IsType [.name "u8", .sign .star, .sign .openParen, .int 16, .sign .closeParen]
      "u8*(16)" := by
    have htext : "u8" ++ String.join ["*", s!"({(16 : Int)})"] = "u8*(16)" := by decide +kernel
    have hsuffixes : Many IsSuffix _ _ := .cons .pointer (.cons (.array 16) .nil)
    exact htext ▸ IsType.mk "u8" hsuffixes
  have hcast : Readable (.cast (.addressOf "y") "u8*(16)") := by
    refine .cast (.addressOf hy) htype ?_
    simp only [List.forall_mem_cons]
    exact ⟨hu, trivial, trivial, ⟨by decide, by decide⟩, trivial, nofun⟩
  have hreadable : Readable (.binary .subtract (.negate (.int 0x7FFFFFFFFFFFFFFF))
      (.call "f" [.step .decrement .before (.var "x"), .str "\\\"",
        .cast (.addressOf "y") "u8*(16)"])) := by
    refine .binary (.negate (.int ⟨by decide, by decide⟩)) (.call hf ?_)
    simp [hcast, Readable.step hx, Readable.str hstr]
  obtain ⟨tokens, c, c', hread⟩ := readable_iff_parser_text.1 hreadable
  exact ⟨_, tokens, c, c', rfl, by decide +kernel, hreadable, hread⟩

end Expr

end GLang
