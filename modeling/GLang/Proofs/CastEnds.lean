import GLang.Proofs.Operands

/-!
# In what is accepted, the casts end

`Parser.Checks c F G p`: if the parser `p` succeeds from the cursor `c`, and if at the cursor where
it stops the casts end from there on and `G` holds of the token there, then the casts end from `c`
on and `F` holds of the token at `c`. As a cast is checked by the token that follows it, the rules
run from the end of a parser to its start.
-/

namespace GLang

open Grammar

/-- The tokens that can be read outside casts, apart from the end mark. -/
def Token.isInner : Token → Bool
  | .eof | .keyword .as_ => false
  | _ => true

theorem Token.ne_eof_of_isInner {t : Token} (h : t.isInner) : t ≠ .eof := by
  rintro rfl
  cases h

theorem Grammar.castsEnd_cons {t : Token} {ts : List Token} (h : t.isInner) :
    castsEnd (t :: ts) = castsEnd ts := by
  have hends : castEnds t ts = true := by
    unfold castEnds
    split
    · cases h
    · rfl
  rw [castsEnd, hends, Bool.true_and]

namespace Parser

/-! ### Rules -/

/-- What is known of a token: nothing, or that no operand begins with it. -/
def Checks {α : Type} (c : Cursor) (F G : Token → Prop) (p : Parser α) : Prop :=
  c.Ended → ∀ a c', p.run c = .ok (a, c') →
    c'.Ended ∧ (G c'.current → castsEnd c'.tokens → F c.current ∧ castsEnd c.tokens)

/-- No condition on a token. -/
def Any (_ : Token) : Prop := True

/-- A cast can end before this token. -/
def EndsCast (t : Token) : Prop := t.beginsOperand = false

variable {α β : Type} {c : Cursor} {F G H : Token → Prop}

theorem Checks.weaken {p : Parser α} {F' G' : Token → Prop} (h : Checks c F G p)
    (hF : ∀ t, F t → F' t) (hG : ∀ t, G' t → G t) : Checks c F' G' p := by
  intro hc a c' hr
  obtain ⟨hc', hback⟩ := h hc a c' hr
  refine ⟨hc', fun hg hend => ?_⟩
  obtain ⟨hf, hend⟩ := hback (hG _ hg) hend
  exact ⟨hF _ hf, hend⟩

/-- A parser that checks nothing about its first token. -/
theorem Checks.any {p : Parser α} (h : Checks c F G p) : Checks c Any G p :=
  h.weaken (fun _ _ => trivial) fun _ => id

/-- A parser that leaves nothing to be checked by the token that follows. -/
theorem Checks.closed {p : Parser α} (h : Checks c F Any p) : Checks c F G p :=
  h.weaken (fun _ => id) fun _ _ => trivial

theorem checks_pure {a : α} : Checks c F F (pure a) := by
  intro hc a' c' hr
  cases hr
  exact ⟨hc, fun hf hend => ⟨hf, hend⟩⟩

theorem checks_fail (fault : GrammarFault) : Checks c F G (fail fault : Parser α) := by
  intro _ a c' hr
  cases hr

theorem checks_bind {p : Parser α} {f : α → Parser β} (hp : Checks c F G p)
    (hf : ∀ a c', Checks c' G H (f a)) : Checks c F H (p >>= f) := by
  intro hc b c' hr
  obtain ⟨a, c₁, hpc, hr⟩ := run_bind_eq_ok.1 hr
  obtain ⟨hc₁, hback₁⟩ := hp hc a c₁ hpc
  obtain ⟨hc', hback⟩ := hf a c₁ hc₁ b c' hr
  refine ⟨hc', fun hh hend => ?_⟩
  obtain ⟨hg, hend⟩ := hback hh hend
  exact hback₁ hg hend

theorem checks_map {p : Parser α} {g : α → β} (hp : Checks c F G p) :
    Checks c F G (p >>= fun a => pure (g a)) :=
  checks_bind hp fun _ _ => checks_pure

theorem checks_get {f : Cursor → Parser β} (h : Checks c F G (f c)) :
    Checks c F G (get >>= f) := h

theorem checks_current {f : Token → Parser β} (h : Checks c F G (f c.current)) :
    Checks c F G (current >>= f) := h

theorem checks_sees {t : Token} {f : Bool → Parser β} (h : Checks c F G (f (c.current = t))) :
    Checks c F G (sees t >>= f) := h

/-- A parser moves on from a token that begins no cast. -/
theorem checks_advance {t : Token} {f : Unit → Parser β} (ht : c.current = t) (hinner : t.isInner)
    (hF : F t) (hf : c.advance.current = c.peek → Checks c.advance Any G (f ())) :
    Checks c F G (advance >>= f) := by
  intro hc b c' hr
  obtain ⟨hc₁, htokens, hpeek⟩ := hc.advance (ht ▸ Token.ne_eof_of_isInner hinner)
  obtain ⟨hc', hback⟩ := hf hpeek hc₁ b c' hr
  refine ⟨hc', fun hg hend => ⟨ht ▸ hF, ?_⟩⟩
  rw [htokens, castsEnd_cons (ht ▸ hinner)]
  exact (hback hg hend).2

theorem checks_expect {t : Token} {f : Unit → Parser β} (hinner : t.isInner) (hF : F t)
    (hf : ∀ c', Checks c' Any G (f ())) : Checks c F G (expect t >>= f) := by
  rw [expect, bind_assoc]
  refine checks_current ?_
  split
  · rename_i ht
    exact checks_advance ht hinner hF fun _ => hf _
  · exact checks_bind (G := Any) (checks_fail _) fun _ => hf

/-- A sign that begins no operand can end a cast. -/
theorem checks_sign {s : Sign} {f : Unit → Parser β} (hF : F (.sign s))
    (hf : ∀ c', Checks c' Any G (f ())) : Checks c F G (sign s >>= f) :=
  checks_expect rfl hF hf

theorem checks_keyword {k : Keyword} {f : Unit → Parser β} (hinner : (Token.keyword k).isInner)
    (hf : ∀ c', Checks c' Any G (f ())) : Checks c Any G (keyword k >>= f) :=
  checks_expect hinner trivial hf

theorem checks_ident {role : NameRole} {f : String → Parser β}
    (hf : ∀ x c', Checks c' Any G (f x)) : Checks c Any G (ident role >>= f) := by
  rw [ident, bind_assoc]
  refine checks_current ?_
  split
  · rename_i x hx
    rw [bind_assoc]
    exact checks_advance hx rfl trivial fun _ => hf x _
  · exact checks_bind (G := Any) (checks_fail _) fun a => hf a

/-- **All loops.** What holds before a round and after it holds before the loop. -/
theorem checks_manyWithin {more : Cursor → Bool} {item : Parser α}
    (hitem : ∀ c, more c → Checks c F F item) (bound : List Spanned) :
    ∀ c, Checks c F F (manyWithin more item bound) := by
  induction bound with
  | nil => exact fun c => checks_fail _
  | cons _ bound ih =>
    intro c
    refine checks_get ?_
    split
    · rename_i hmore
      exact checks_bind (hitem c hmore) fun _ c => checks_map (ih c)
    · exact checks_pure

theorem checks_many {more : Cursor → Bool} {item : Parser α}
    (hitem : ∀ c, more c → Checks c F F item) : Checks c F F (many more item) :=
  checks_get (checks_manyWithin hitem _ c)

theorem checks_commaSeparated {item : Parser α} (hitem : ∀ c, Checks c Any EndsCast item) :
    Checks c Any EndsCast (commaSeparated item) := by
  refine checks_bind (hitem c) fun _ c => checks_map (checks_many fun c hmore => ?_)
  exact checks_advance (of_decide_eq_true hmore) rfl rfl fun _ => hitem _

theorem checks_parenthesized {item : Parser α} (hitem : ∀ c, Checks c Any EndsCast item) :
    Checks c Any Any (parenthesized item) :=
  checks_sign trivial fun c => checks_bind (hitem c) fun _ _ =>
    checks_sign rfl fun _ => checks_pure

theorem checks_listed {item : Parser α} (hitem : ∀ c, Checks c Any EndsCast item) :
    Checks c Any Any (parenthesized do
      if ← sees (.sign .closeParen) then return [] else commaSeparated item) := by
  refine checks_parenthesized fun c => checks_sees ?_
  split
  · exact checks_pure.any
  · exact checks_commaSeparated hitem

/-! ### Types -/

/-- No type has a cast in it. -/
theorem castsEnd_type {ts us : List Token} {text : String} (h : IsType ts text)
    (hend : castsEnd us) : castsEnd (ts ++ us) := by
  obtain ⟨x, h⟩ := h
  rw [List.cons_append, castsEnd_cons (t := .name x) rfl]
  induction h with
  | nil => exact hend
  | cons hsuffix _ ih =>
    rw [List.append_assoc]
    cases hsuffix with
    | pointer =>
      show castsEnd (.sign .star :: _) = true
      rw [castsEnd_cons rfl]
      exact ih
    | array n =>
      show castsEnd (.sign .openParen :: .int n :: .sign .closeParen :: _) = true
      rw [castsEnd_cons rfl, castsEnd_cons rfl, castsEnd_cons rfl]
      exact ih

theorem checks_typeDescriptor : Checks c Any Any typeDescriptor := by
  intro hc text c' hr
  obtain ⟨hc', ts, hts, htype⟩ := reads_typeDescriptor hc text c' hr
  exact ⟨hc', fun _ hend => ⟨trivial, hts ▸ castsEnd_type htype hend⟩⟩

/-- A type takes all suffixes that follow it. -/
theorem atTypeSuffix_of_typeDescriptor {text : String} {c' : Cursor}
    (h : typeDescriptor.run c = .ok (text, c')) : c'.atTypeSuffix = false := by
  obtain ⟨x, c₁, -, h⟩ := run_bind_eq_ok.1 h
  obtain ⟨suffixes, c₂, hmany, h⟩ := run_bind_eq_ok.1 h
  cases h
  exact more_eq_false_of_manyWithin _ hmany

theorem afterSuffixes_of_atTypeSuffix (h : c.atTypeSuffix = false) :
    afterSuffixes c.tokens = c.tokens := by
  rw [afterSuffixes.eq_3]
  · intro ts hts
    rw [Cursor.atTypeSuffix, Cursor.current_of_tokens hts] at h
    cases h
  · intro n ts hts
    rw [Cursor.atTypeSuffix, Cursor.current_of_tokens hts, Cursor.peek_of_tokens hts] at h
    cases h

/-- A cast is checked by the token after its target. -/
theorem checks_target (hmore : c.current = .keyword .as_) :
    Checks c EndsCast EndsCast (do advance; typeDescriptor) := by
  intro hc text c' hr
  obtain ⟨hc₁, htokens, -⟩ := hc.advance (by simp [hmore])
  have hrun : typeDescriptor.run c.advance = .ok (text, c') := hr
  obtain ⟨hc', ts, hts, htype⟩ := reads_typeDescriptor hc₁ text c' hrun
  refine ⟨hc', fun hg hend => ⟨by rw [hmore]; rfl, ?_⟩⟩
  have hlater : castsEnd (ts ++ c'.tokens) := castsEnd_type htype hend
  obtain ⟨x, hsuffixes⟩ := htype
  rw [htokens, hmore, hts, castsEnd, Bool.and_eq_true]
  refine ⟨?_, hlater⟩
  rw [List.cons_append, castEnds, afterSuffixes_append hsuffixes,
    afterSuffixes_of_atTypeSuffix (atTypeSuffix_of_typeDescriptor hrun), Cursor.tokens]
  simpa [EndsCast] using hg

/-- A cast can end before every operator. -/
theorem checks_leftAssoc (level : Precedence) {operand : Parser Expr}
    (h : ∀ c, Checks c Any EndsCast operand) :
    Checks c Any EndsCast (leftAssoc level.operator? operand) := by
  refine checks_bind (h c) fun _ c => checks_map (checks_many fun c _ => checks_current ?_)
  split
  · rename_i op hcurrent
    obtain ⟨s, hs, hop⟩ := Precedence.isOperator_of_operator? hcurrent
    exact checks_advance hs rfl (by cases hop <;> rfl) fun _ => checks_map (h _)
  · exact checks_current (checks_fail _)

end Parser

open GLang.Parser

/-! ### Expressions -/

namespace Expr

variable {c : Cursor}

theorem checks_levelsOver {unary : Parser Expr} (h : ∀ c, Checks c Any EndsCast unary) :
    Checks c Any EndsCast (levelsOver unary) := by
  have hcasts : ∀ c, Checks c Any EndsCast (castsOver unary) := fun c =>
    checks_bind (h c) fun _ _ => checks_map (checks_many fun _ hmore =>
      checks_target (of_decide_eq_true hmore))
  exact checks_leftAssoc .or fun _ => checks_leftAssoc .and fun _ => checks_leftAssoc .equality
    fun _ => checks_leftAssoc .relational fun _ => checks_leftAssoc .additive fun _ =>
      checks_leftAssoc .multiplicative hcasts

theorem checks_primaryOver {expression : Parser Expr}
    (h : ∀ c, Checks c Any EndsCast expression) :
    Checks c Any EndsCast (primaryOver expression) := by
  refine checks_current ?_
  split
  · rename_i hn
    exact checks_advance hn rfl trivial fun _ => checks_pure.any
  · rename_i hraw
    exact checks_advance hraw rfl trivial fun _ => checks_pure.any
  · rename_i hx
    exact checks_advance hx rfl trivial fun _ => checks_pure.any
  · exact (checks_parenthesized h).closed
  · exact checks_fail _

theorem checks_postfixedOver {expression : Parser Expr}
    (h : ∀ c, Checks c Any EndsCast expression) :
    Checks c Any EndsCast (postfixedOver expression) := by
  refine checks_get ?_
  split
  · rename_i x hx
    split
    · rename_i op hop
      obtain ⟨s, hs, -⟩ := StepOp.isStep_of_ofToken? hop
      refine checks_advance hx rfl trivial fun hpeek => ?_
      exact checks_advance (hpeek.trans hs) rfl trivial fun _ => checks_pure.any
    · exact checks_advance hx rfl trivial fun _ =>
        checks_map (checks_listed h).closed
    · exact checks_primaryOver h
  · exact checks_primaryOver h

/-- **The casts in an expression end,** by induction on how deep it nests. -/
theorem checks_unary (bound : List Spanned) : ∀ c, Checks c Any EndsCast (unary bound) := by
  induction bound with
  | nil => exact fun c => checks_fail _
  | cons _ bound ih =>
    intro c
    refine checks_current ?_
    split
    · rename_i hminus
      exact checks_advance hminus rfl trivial fun _ => checks_map (ih _)
    · rename_i hstar
      exact checks_advance hstar rfl trivial fun _ => checks_map (ih _)
    · rename_i hand
      exact checks_advance hand rfl trivial fun _ => checks_ident fun _ _ => checks_pure.any
    · rename_i hplus
      exact checks_advance hplus rfl trivial fun _ => checks_ident fun _ _ => checks_pure.any
    · rename_i hminus
      exact checks_advance hminus rfl trivial fun _ => checks_ident fun _ _ => checks_pure.any
    · exact checks_postfixedOver fun _ => checks_levelsOver ih

theorem checks_unaryParser : Checks c Any EndsCast unaryParser :=
  checks_get (checks_unary _ c)

theorem checks_expression : Checks c Any EndsCast parser :=
  checks_get (checks_levelsOver (checks_unary _))

end Expr

/-! ### Statements -/

namespace Stmt

variable {c : Cursor}

theorem checks_declaration : Checks c Any EndsCast declaration := by
  refine checks_keyword rfl fun _ => checks_ident fun _ _ => checks_sign trivial fun _ => ?_
  refine checks_bind checks_typeDescriptor fun _ c => checks_sees ?_
  split
  · rename_i hequals
    exact checks_advance (of_decide_eq_true hequals) rfl trivial fun _ =>
      checks_map Expr.checks_expression
  · exact checks_pure.any

theorem checks_simple : Checks c Any EndsCast simple := by
  refine checks_sees ?_
  split
  · rename_i hstar
    refine checks_advance (of_decide_eq_true hstar) rfl trivial fun _ => ?_
    refine checks_bind Expr.checks_unaryParser fun _ c => checks_sign rfl fun _ => ?_
    refine checks_bind Expr.checks_expression fun _ c => ?_
    split <;> exact checks_pure
  · refine checks_ident fun x c => checks_current ?_
    split
    · rename_i hequals
      exact checks_advance hequals rfl trivial fun _ => checks_map Expr.checks_expression
    · rename_i hplus
      exact checks_advance hplus rfl trivial fun _ => checks_pure.any
    · rename_i hminus
      exact checks_advance hminus rfl trivial fun _ => checks_pure.any
    · exact checks_map (checks_listed fun _ => Expr.checks_expression).closed
    · exact checks_fail _

theorem checks_unlessAt {α : Type} {item : Parser α} (stop : Sign)
    (h : ∀ c, Checks c Any EndsCast item) : Checks c Any EndsCast (unlessAt stop item) := by
  refine checks_sees ?_
  split
  · exact checks_pure.any
  · exact checks_map (h c)

theorem checks_terminated {item : Parser Stmt} (h : Checks c Any EndsCast item) :
    Checks c Any Any (terminated item) :=
  checks_bind h fun _ _ => checks_sign rfl fun _ => checks_pure

section

variable {block : Parser Block} (h : ∀ c, Checks c Any Any block)

include h

theorem checks_armOver : Checks c Any Any (armOver block) :=
  checks_bind (checks_parenthesized fun _ => Expr.checks_expression) fun _ c => checks_map (h c)

theorem checks_branchOver : Checks c Any Any (branchOver block) := by
  refine checks_keyword rfl fun c => checks_bind (checks_armOver h) fun _ c => ?_
  refine checks_bind (checks_many fun c hmore => ?_) fun _ c => checks_sees ?_
  · obtain ⟨helse, hif⟩ := Bool.and_eq_true_iff.1 hmore
    refine checks_advance (of_decide_eq_true helse) rfl trivial fun hpeek => ?_
    exact checks_advance (hpeek.trans (of_decide_eq_true hif)) rfl trivial fun _ =>
      checks_armOver h
  · split
    · rename_i helse
      exact checks_advance (of_decide_eq_true helse) rfl trivial fun _ => checks_map (h _)
    · exact checks_pure

theorem checks_forOver : Checks c Any Any (forOver block) := by
  refine checks_keyword rfl fun _ => checks_sign trivial fun _ => ?_
  refine checks_bind (checks_unlessAt _ fun c => checks_sees ?_) fun _ _ => ?_
  · split
    · exact checks_declaration
    · exact checks_simple
  refine checks_sign rfl fun _ => checks_bind
    (checks_unlessAt _ fun _ => Expr.checks_expression) fun _ _ => ?_
  refine checks_sign rfl fun _ => checks_bind (checks_unlessAt _ fun _ => checks_simple)
    fun _ _ => ?_
  exact checks_sign rfl fun c => checks_map (h c)

theorem checks_statementOver : Checks c Any Any (statementOver block) := by
  refine checks_current ?_
  split
  · exact checks_terminated checks_declaration
  · exact checks_branchOver h
  · rename_i hwhile
    refine checks_advance hwhile rfl trivial fun _ => ?_
    exact checks_bind (checks_parenthesized fun _ => Expr.checks_expression) fun _ c =>
      checks_map (h c)
  · exact checks_forOver h
  · rename_i hbreak
    exact checks_terminated (checks_advance hbreak rfl trivial fun _ => checks_pure.any)
  · rename_i hcontinue
    exact checks_terminated (checks_advance hcontinue rfl trivial fun _ => checks_pure.any)
  · rename_i hreturn
    exact checks_terminated (checks_advance hreturn rfl trivial fun _ =>
      checks_map (checks_unlessAt _ fun _ => Expr.checks_expression))
  · exact checks_terminated checks_simple

end

/-- **The casts in a block end,** by induction on how deep blocks nest. -/
theorem checks_blockWithin (bound : List Spanned) : ∀ c, Checks c Any Any (blockWithin bound) := by
  induction bound with
  | nil => exact fun c => checks_fail _
  | cons _ bound ih =>
    intro c
    refine checks_sign trivial fun _ => checks_bind (checks_many fun c _ => checks_get ?_)
      fun _ _ => checks_sign trivial fun _ => checks_pure
    split
    · exact checks_fail _
    · exact checks_statementOver ih

end Stmt

/-! ### Programs -/

variable {c : Cursor}

theorem Binding.checks_binding {role : NameRole} : Checks c Any Any (Binding.parser role) :=
  checks_ident fun _ _ => checks_sign trivial fun _ => checks_map checks_typeDescriptor

theorem FunctionDecl.checks_header : Checks c Any Any header := by
  refine checks_keyword rfl fun _ => checks_ident fun _ _ => ?_
  refine checks_bind (checks_listed fun _ => Binding.checks_binding.closed) fun _ _ =>
    checks_sees ?_
  split
  · rename_i harrow
    exact checks_advance (of_decide_eq_true harrow) rfl trivial fun _ =>
      checks_map checks_typeDescriptor
  · exact checks_pure

theorem StructDecl.checks_struct : Checks c Any Any StructDecl.parser := by
  refine checks_keyword rfl fun _ => checks_ident fun _ _ => checks_sign trivial fun _ => ?_
  refine checks_bind (checks_many fun c _ => ?_) fun _ _ => checks_sign trivial fun _ => checks_pure
  exact checks_bind Binding.checks_binding fun _ _ => checks_sign trivial fun _ => checks_pure

theorem Item.checks_item : Checks c Any Any Item.parser := by
  refine checks_current ?_
  split
  · rename_i hextern
    refine checks_advance hextern rfl trivial fun _ => ?_
    exact checks_bind FunctionDecl.checks_header fun _ _ => checks_sign trivial fun _ => checks_pure
  · exact checks_map StructDecl.checks_struct
  · refine checks_bind FunctionDecl.checks_header fun _ c => ?_
    exact checks_map (checks_get (Stmt.checks_blockWithin _ c))
  · exact checks_fail _

theorem Program.checks_program : Checks c Any Any Program.parser :=
  checks_map (checks_many fun _ _ => Item.checks_item)

end GLang
