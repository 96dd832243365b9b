import GLang.Proofs.Generation
import GLang.Proofs.Grammar
import GLang.Proofs.Lexemes
import GLang.Proofs.Reading
import GLang.Syntax.Program.Parser

/-!
# What is read is derived

Over a token list with an end mark, every parser reads a part of the list that the grammar derives,
with its value as the tree of the derivation. Each parser has one lemma, and there are two
inductions:

* `Expr.reads_unary`: on how deep an expression nests,
* `Stmt.reads_blockWithin`: on how deep blocks nest,
* `Program.isProgram_of_tokens`: so a program is derived from all tokens before the end mark.
-/

namespace GLang

open Grammar

namespace Parser

/-! ### Lists -/

variable {α : Type} {c : Cursor} {Q : List Token → α → Prop}

/-- Items that the grammar repeats. -/
theorem reads_many_of {more : Cursor → Bool} {item : Parser α}
    (hitem : ∀ c, more c → Reads c item Q) : Reads c (many more item) (Grammar.Many Q) :=
  reads_many .nil (fun _ _ _ _ => .cons) hitem

theorem reads_commaSeparated {item : Parser α} (hitem : ∀ c, Reads c item Q) :
    Reads c (commaSeparated item) (Separated Q) := by
  refine reads_bind (hitem c) fun ts first c hfirst => ?_
  -- A list that begins with a comma goes on with the items before it.
  refine reads_map
    (Q := fun us as => ∀ ts first, Q ts first → Separated Q (ts ++ us) (first :: as))
    (reads_many (Q := fun us a => ∃ vs, us = .sign .comma :: vs ∧ Q vs a) ?_ ?_ fun c hmore => ?_)
    fun us as has => has ts first hfirst
  · intro ts first hfirst
    rw [List.append_nil]
    exact .one hfirst
  · rintro _ a us as ⟨vs, rfl, ha⟩ has ts first hfirst
    exact .cons hfirst (has vs a ha)
  · refine reads_advance (of_decide_eq_true hmore) nofun fun _ => ?_
    exact (hitem _).weaken fun vs a ha => ⟨vs, rfl, ha⟩

theorem reads_parenthesized {item : Parser α} (hitem : ∀ c, Reads c item Q) :
    Reads c (parenthesized item) fun ts a => ∃ us, ts = parens us ∧ Q us a := by
  refine reads_sign fun c => reads_bind (hitem c) fun us a c ha => reads_sign fun c => ?_
  exact reads_pure ⟨us, rfl, ha⟩

/-- A list in parentheses that can be empty. -/
theorem reads_listed {item : Parser α} (hitem : ∀ c, Reads c item Q) :
    Reads c (parenthesized do
      if ← sees (.sign .closeParen) then return [] else commaSeparated item)
      fun ts as => ∃ us, ts = parens us ∧ Listed Q us as := by
  refine reads_parenthesized fun c => reads_sees ?_
  split
  · exact reads_pure .nil
  · exact (reads_commaSeparated hitem).weaken fun _ _ => .some

/-! ### Types -/

theorem reads_typeSuffix (hmore : c.atTypeSuffix) : Reads c typeSuffix IsSuffix := by
  refine reads_current ?_
  split
  · rename_i hstar
    exact reads_advance hstar nofun fun _ => reads_pure .pointer
  · rename_i hstar
    have hopen : c.current = .sign .openParen := by
      unfold Cursor.atTypeSuffix at hmore
      split at hmore
      · rename_i h
        exact absurd h hstar
      · assumption
      · cases hmore
    refine reads_advance hopen nofun fun _ => reads_current ?_
    split
    · rename_i n hn
      exact reads_advance hn nofun fun _ => reads_sign fun _ => reads_pure (.array n)
    · exact reads_fail _

theorem reads_typeDescriptor : Reads c typeDescriptor IsType :=
  reads_ident fun x _ => reads_map (reads_many_of fun _ => reads_typeSuffix) fun _ _ h => .mk x h

end Parser

/-! ### Operators -/

/-- How the parser finds the operators of a level. -/
def Grammar.Precedence.operator? : Precedence → Token → Option BinOp
  | or => BinOp.disjunction?
  | and => BinOp.conjunction?
  | equality => BinOp.equality?
  | relational => BinOp.comparison?
  | additive => BinOp.sum?
  | multiplicative => BinOp.product?
  | cast | unary | postfixed | primary => fun _ => none

theorem Grammar.Precedence.isOperator_of_operator? {level : Precedence} {t : Token} {op : BinOp}
    (h : level.operator? t = some op) : ∃ s, t = .sign s ∧ IsOperator level s op := by
  cases level with
  | or =>
    simp only [operator?, BinOp.disjunction?] at h
    split at h <;> cases h
    exact ⟨_, rfl, .or⟩
  | and =>
    simp only [operator?, BinOp.conjunction?] at h
    split at h <;> cases h
    exact ⟨_, rfl, .and⟩
  | equality =>
    simp only [operator?, BinOp.equality?] at h
    split at h <;> cases h
    · exact ⟨_, rfl, .equal⟩
    · exact ⟨_, rfl, .notEqual⟩
  | relational =>
    simp only [operator?, BinOp.comparison?] at h
    split at h <;> cases h
    · exact ⟨_, rfl, .less⟩
    · exact ⟨_, rfl, .lessEqual⟩
    · exact ⟨_, rfl, .greater⟩
    · exact ⟨_, rfl, .greaterEqual⟩
  | additive =>
    simp only [operator?, BinOp.sum?] at h
    split at h <;> cases h
    · exact ⟨_, rfl, .add⟩
    · exact ⟨_, rfl, .subtract⟩
  | multiplicative =>
    simp only [operator?, BinOp.product?] at h
    split at h <;> cases h
    · exact ⟨_, rfl, .multiply⟩
    · exact ⟨_, rfl, .divide⟩
  | cast | unary | postfixed | primary => cases h

/-- Operands with the operators of a level between them. -/
theorem Parser.reads_leftAssoc {c : Cursor} (level : Precedence) {operand : Parser Expr}
    (h : ∀ c, Reads c operand (IsExpr level.tighter)) :
    Reads c (leftAssoc level.operator? operand) (IsExpr level) := by
  refine reads_bind (h c) fun ts first c hfirst => ?_
  -- Each operator takes all that stands before it as its left operand.
  refine reads_map (Q := fun us rest => ∀ ts first, IsExpr level ts first →
      IsExpr level (ts ++ us) (rest.foldl (fun left r => .binary r.1 left r.2) first))
    (reads_many (Q := fun us r => ∃ s vs, us = .sign s :: vs ∧ IsOperator level s r.1 ∧
      IsExpr level.tighter vs r.2) ?_ ?_ fun c _ => ?_)
    fun us rest hrest => hrest ts first (.tighter hfirst)
  · intro ts first hfirst
    rw [List.append_nil]
    exact hfirst
  · rintro _ ⟨op, right⟩ us rest ⟨s, vs, rfl, hs, hright⟩ hrest ts first hfirst
    rw [← List.append_assoc]
    exact hrest _ _ (.binary hs hfirst hright)
  · refine reads_current ?_
    split
    · rename_i op hcurrent
      obtain ⟨s, hs, hoperator⟩ := Precedence.isOperator_of_operator? hcurrent
      refine reads_advance hs (by simp) fun _ => reads_map (h _) fun vs right hright => ?_
      exact ⟨s, vs, rfl, hoperator, hright⟩
    · exact reads_current (reads_fail _)

theorem StepOp.isStep_of_ofToken? {t : Token} {op : StepOp} (h : ofToken? t = some op) :
    ∃ s, t = .sign s ∧ IsStep s op := by
  unfold ofToken? at h
  split at h <;> cases h
  · exact ⟨_, rfl, .increment⟩
  · exact ⟨_, rfl, .decrement⟩

/-! ### Expressions -/

namespace Expr

open GLang.Parser

variable {c : Cursor}

theorem reads_castsOver {unary : Parser Expr} (h : ∀ c, Reads c unary (IsExpr .unary)) :
    Reads c (castsOver unary) (IsExpr .cast) := by
  refine reads_bind (h c) fun ts operand c hoperand => ?_
  refine reads_map (Q := fun us targets => ∀ ts e, IsExpr .cast ts e →
      IsExpr .cast (ts ++ us) (targets.foldl .cast e))
    (reads_many (Q := fun us target => ∃ vs, us = .keyword .as_ :: vs ∧ IsType vs target)
      ?_ ?_ fun c hmore => ?_) fun us targets htargets => htargets ts operand (.tighter hoperand)
  · intro ts e he
    rw [List.append_nil]
    exact he
  · rintro _ target us targets ⟨vs, rfl, htarget⟩ htargets ts e he
    rw [← List.append_assoc]
    exact htargets _ _ (.cast he htarget)
  · refine reads_advance (of_decide_eq_true hmore) nofun fun _ => ?_
    exact reads_typeDescriptor.weaken fun vs target htarget => ⟨vs, rfl, htarget⟩

theorem reads_levelsOver {unary : Parser Expr} (h : ∀ c, Reads c unary (IsExpr .unary)) :
    Reads c (levelsOver unary) (IsExpr .or) :=
  reads_leftAssoc .or fun _ => reads_leftAssoc .and fun _ => reads_leftAssoc .equality fun _ =>
    reads_leftAssoc .relational fun _ => reads_leftAssoc .additive fun _ =>
      reads_leftAssoc .multiplicative fun _ => reads_castsOver h

theorem reads_argumentsOver {expression : Parser Expr} (h : ∀ c, Reads c expression (IsExpr .or)) :
    Reads c (argumentsOver expression) fun ts args =>
      ∃ us, ts = parens us ∧ Listed (IsExpr .or) us args :=
  reads_listed h

theorem reads_primaryOver {expression : Parser Expr} (h : ∀ c, Reads c expression (IsExpr .or)) :
    Reads c (primaryOver expression) (IsExpr .primary) := by
  refine reads_current ?_
  split
  · rename_i n hn
    exact reads_advance hn nofun fun _ => reads_pure (.int n)
  · rename_i raw hraw
    exact reads_advance hraw nofun fun _ => reads_pure (.str raw)
  · rename_i x hx
    exact reads_advance hx nofun fun _ => reads_pure (.var x)
  · refine (reads_parenthesized h).weaken ?_
    rintro _ e ⟨us, rfl, he⟩
    exact .parens he
  · exact reads_fail _

theorem reads_postfixedOver {expression : Parser Expr} (h : ∀ c, Reads c expression (IsExpr .or)) :
    Reads c (postfixedOver expression) (IsExpr .postfixed) := by
  refine reads_get ?_
  split
  · rename_i x hx
    split
    · rename_i op hop
      obtain ⟨s, hs, hstep⟩ := StepOp.isStep_of_ofToken? hop
      refine reads_advance hx nofun fun hpeek => ?_
      exact reads_advance (hpeek.trans hs) nofun fun _ => reads_pure (.stepAfter x hstep)
    · refine reads_advance hx nofun fun _ => ?_
      refine reads_map (reads_argumentsOver h) ?_
      rintro _ args ⟨us, rfl, hargs⟩
      exact .call x hargs
    · exact (reads_primaryOver h).weaken fun _ _ h => .tighter h
  · exact (reads_primaryOver h).weaken fun _ _ h => .tighter h

/-- **Expressions are derived,** by induction on how deep they nest. -/
theorem reads_unary (bound : List Spanned) : ∀ c, Reads c (unary bound) (IsExpr .unary) := by
  induction bound with
  | nil => exact fun c => reads_fail _
  | cons _ bound ih =>
    intro c
    refine reads_current ?_
    split
    · rename_i hminus
      exact reads_advance hminus nofun fun _ => reads_map (ih _) fun _ _ he => .negate he
    · rename_i hstar
      exact reads_advance hstar nofun fun _ => reads_map (ih _) fun _ _ he => .deref he
    · rename_i hand
      exact reads_advance hand nofun fun _ => reads_ident fun x _ => reads_pure (.addressOf x)
    · rename_i hplus
      refine reads_advance hplus nofun fun _ => reads_ident fun x _ => ?_
      exact reads_pure (.stepBefore x .increment)
    · rename_i hminus
      refine reads_advance hminus nofun fun _ => reads_ident fun x _ => ?_
      exact reads_pure (.stepBefore x .decrement)
    · exact (reads_postfixedOver fun _ => reads_levelsOver ih).weaken fun _ _ h => .tighter h

theorem reads_unaryParser : Reads c unaryParser (IsExpr .unary) :=
  reads_get (reads_unary _ c)

theorem reads_expression : Reads c parser (IsExpr .or) :=
  reads_get (reads_levelsOver (reads_unary _))

end Expr

/-! ### Statements -/

namespace Stmt

open GLang.Parser

variable {c : Cursor}

theorem reads_declaration : Reads c declaration IsDeclaration := by
  refine reads_keyword fun _ => reads_ident fun x _ => reads_sign fun _ => ?_
  refine reads_bind reads_typeDescriptor fun ts type c htype => reads_sees ?_
  split
  · rename_i hequals
    refine reads_advance (of_decide_eq_true hequals) nofun fun _ => ?_
    exact reads_map Expr.reads_expression fun _ _ he => .initialised x htype he
  · exact reads_pure (by rw [List.append_nil]; exact .plain x htype)

theorem reads_simple : Reads c simple IsSimple := by
  refine reads_sees ?_
  split
  · rename_i hstar
    refine reads_advance (of_decide_eq_true hstar) nofun fun _ => ?_
    refine reads_bind Expr.reads_unaryParser fun ts address c haddress => ?_
    refine reads_sign fun _ => reads_bind Expr.reads_expression fun us e c he => ?_
    split
    · exact reads_pure (by rw [List.append_nil]; exact .store haddress he)
    · rename_i hne
      exact reads_pure (by rw [List.append_nil]; exact .storeAt haddress hne he)
  · refine reads_ident fun x c => reads_current ?_
    split
    · rename_i hequals
      refine reads_advance hequals nofun fun _ => ?_
      exact reads_map Expr.reads_expression fun _ _ he => .assign x he
    · rename_i hplus
      exact reads_advance hplus nofun fun _ => reads_pure (.step x .increment)
    · rename_i hminus
      exact reads_advance hminus nofun fun _ => reads_pure (.step x .decrement)
    · refine reads_map (Expr.reads_argumentsOver fun _ => Expr.reads_expression) ?_
      rintro _ args ⟨us, rfl, hargs⟩
      exact .run x hargs
    · exact reads_fail _

theorem reads_unlessAt {α : Type} {Q : List Token → α → Prop} {item : Parser α} (stop : Sign)
    (h : ∀ c, Reads c item Q) : Reads c (unlessAt stop item) (Maybe Q) := by
  refine reads_sees ?_
  split
  · exact reads_pure .none
  · exact reads_map (h c) fun _ _ ha => .some ha

theorem reads_terminated {Q : List Token → Stmt → Prop} {item : Parser Stmt} (h : Reads c item Q) :
    Reads c (terminated item) fun ts s => ∃ us, ts = us ++ [.sign .semicolon] ∧ Q us s :=
  reads_bind h fun us _ _ hs => reads_sign fun _ => reads_pure ⟨us, rfl, hs⟩

section

variable {block : Parser Block} (h : ∀ c, Reads c block IsBlock)

include h

theorem reads_armOver : Reads c (armOver block) IsArm := by
  refine reads_bind (reads_parenthesized fun _ => Expr.reads_expression) ?_
  rintro _ condition c ⟨ts, rfl, hcondition⟩
  exact reads_map (h c) fun _ _ hbody => .mk hcondition hbody

theorem reads_branchOver : Reads c (branchOver block) IsStmt := by
  refine reads_keyword fun c => reads_bind (reads_armOver h) fun ts first c hfirst => ?_
  refine reads_bind (reads_many_of (Q := IsElseIf) fun c hmore => ?_) fun us others c hothers => ?_
  · obtain ⟨helse, hif⟩ := Bool.and_eq_true_iff.1 hmore
    refine reads_advance (of_decide_eq_true helse) nofun fun hpeek => ?_
    refine reads_advance (hpeek.trans (of_decide_eq_true hif)) nofun fun _ => ?_
    exact (reads_armOver h).weaken fun _ _ => .mk
  · refine reads_sees ?_
    split
    · rename_i helse
      refine reads_advance (of_decide_eq_true helse) nofun fun _ => ?_
      refine reads_map (h _) fun vs body hbody => ?_
      have := IsStmt.branch hfirst hothers (.some (.mk hbody))
      simpa using this
    · refine reads_pure ?_
      have := IsStmt.branch hfirst hothers .none
      simpa using this

theorem reads_forOver : Reads c (forOver block) IsStmt := by
  refine reads_keyword fun _ => reads_sign fun _ => ?_
  refine reads_bind (reads_unlessAt (Q := IsOpening) _ fun c => ?_) fun ts init c hinit => ?_
  · refine reads_sees ?_
    split
    · exact reads_declaration.weaken fun _ _ => .declaration
    · exact reads_simple.weaken fun _ _ => .simple
  refine reads_sign fun _ => reads_bind (reads_unlessAt _ fun _ => Expr.reads_expression)
    fun us condition c hcondition => ?_
  refine reads_sign fun _ => reads_bind (reads_unlessAt _ fun _ => reads_simple)
    fun vs increment c hincrement => ?_
  refine reads_sign fun c => reads_map (h c) fun ws body hbody => ?_
  have := IsStmt.forLoop hinit hcondition hincrement hbody
  simpa [parens] using this

theorem reads_statementOver : Reads c (statementOver block) IsStmt := by
  refine reads_current ?_
  split
  · refine (reads_terminated reads_declaration).weaken ?_
    rintro _ s ⟨us, rfl, hs⟩
    exact .declare hs
  · exact reads_branchOver h
  · rename_i hwhile
    refine reads_advance hwhile nofun fun _ => ?_
    refine reads_bind (reads_parenthesized fun _ => Expr.reads_expression) ?_
    rintro _ condition c ⟨ts, rfl, hcondition⟩
    exact reads_map (h c) fun _ _ hbody => .whileLoop hcondition hbody
  · exact reads_forOver h
  · rename_i hbreak
    refine (reads_terminated (Q := fun us s => us = [.keyword .break_] ∧ s = .breakLoop)
      (reads_advance hbreak nofun fun _ => reads_pure ⟨rfl, rfl⟩)).weaken ?_
    rintro _ _ ⟨_, rfl, rfl, rfl⟩
    exact .breakLoop
  · rename_i hcontinue
    refine (reads_terminated (Q := fun us s => us = [.keyword .continue_] ∧ s = .continueLoop)
      (reads_advance hcontinue nofun fun _ => reads_pure ⟨rfl, rfl⟩)).weaken ?_
    rintro _ _ ⟨_, rfl, rfl, rfl⟩
    exact .continueLoop
  · rename_i hreturn
    refine (reads_terminated (Q := fun us s => ∃ ts value, us = .keyword .return_ :: ts ∧
      s = .ret value ∧ Maybe (IsExpr .or) ts value) ?_).weaken ?_
    · refine reads_advance hreturn nofun fun _ => ?_
      exact reads_map (reads_unlessAt _ fun _ => Expr.reads_expression)
        fun ts value hvalue => ⟨ts, value, rfl, rfl, hvalue⟩
    · rintro _ _ ⟨_, rfl, ts, value, rfl, rfl, hvalue⟩
      exact .ret hvalue
  · refine (reads_terminated reads_simple).weaken ?_
    rintro _ s ⟨us, rfl, hs⟩
    exact .simple hs

end

/-- **Blocks are derived,** by induction on how deep they nest. -/
theorem reads_blockWithin (bound : List Spanned) : ∀ c, Reads c (blockWithin bound) IsBlock := by
  induction bound with
  | nil => exact fun c => reads_fail _
  | cons _ bound ih =>
    intro c
    refine reads_sign fun _ => ?_
    refine reads_bind (reads_many_of (Q := IsStmt) fun c _ => ?_) fun ts body c hbody => ?_
    · refine reads_get ?_
      split
      · exact reads_fail _
      · exact reads_statementOver ih
    · exact reads_sign fun _ => reads_pure (.mk hbody)

theorem reads_blockParser : Reads c blockParser IsBlock :=
  reads_get (reads_blockWithin _ c)

end Stmt

/-! ### Programs -/

open GLang.Parser

variable {c : Cursor}

theorem Binding.reads_binding {role : NameRole} : Reads c (Binding.parser role) IsBinding := by
  refine reads_ident fun x _ => reads_sign fun _ => ?_
  exact reads_map reads_typeDescriptor fun _ _ htype => .mk x htype

theorem FunctionDecl.reads_header : Reads c header IsHeader := by
  refine reads_keyword fun _ => reads_ident fun f _ => ?_
  refine reads_bind (reads_listed fun _ => Binding.reads_binding) ?_
  rintro _ params c ⟨ts, rfl, hparams⟩
  refine reads_sees ?_
  split
  · rename_i harrow
    refine reads_advance (of_decide_eq_true harrow) nofun fun _ => ?_
    exact reads_map reads_typeDescriptor fun _ _ htype => .mk f hparams (.some (.mk htype))
  · exact reads_pure (.mk f hparams .none)

theorem StructDecl.reads_struct : Reads c parser fun ts decl => IsItem ts (.struct decl) := by
  refine reads_keyword fun _ => reads_ident fun s _ => reads_sign fun _ => ?_
  refine reads_bind (reads_many_of (Q := IsField) fun c _ => ?_) fun ts fields c hfields => ?_
  · refine reads_bind Binding.reads_binding fun ts field c hfield => ?_
    exact reads_sign fun _ => reads_pure (.mk hfield)
  · exact reads_sign fun _ => reads_pure (.struct s hfields)

theorem Item.reads_item : Reads c parser IsItem := by
  refine reads_current ?_
  split
  · rename_i hextern
    refine reads_advance hextern nofun fun _ => ?_
    refine reads_bind FunctionDecl.reads_header fun ts decl c hdecl => ?_
    exact reads_sign fun _ => reads_pure (.external hdecl)
  · exact reads_map StructDecl.reads_struct fun _ _ hdecl => hdecl
  · refine reads_bind FunctionDecl.reads_header fun ts decl c hdecl => ?_
    exact reads_map Stmt.reads_blockParser fun _ _ hbody => .function hdecl hbody
  · exact reads_fail _

theorem Program.reads_program : Reads c parser IsProgram :=
  reads_map (reads_many_of fun _ _ => Item.reads_item) fun _ _ h => .mk h

/-- A program is read up to the end. -/
theorem Program.atEnd_of_run {p : Program} {c' : Cursor} (h : parser.run c = .ok (p, c')) :
    c'.atEnd := by
  obtain ⟨items, c₁, hmany, h⟩ := run_bind_eq_ok.1 h
  cases h
  have := more_eq_false_of_manyWithin _ hmany
  simpa using this

/-- **The parser is sound.** If a list of tokens with one end mark, its last token, is read as a
program, then the parser has come to the end mark, and the grammar derives all tokens before it,
with the program as the tree of the derivation. -/
theorem Program.isProgram_of_tokens {tokens : List Spanned} {ts : List Token} {p : Program}
    (htokens : tokens.map Spanned.token = ts ++ [.eof]) (heof : .eof ∉ ts)
    (h : ofTokens tokens = .ok p) :
    IsProgram ts p ∧ ∃ c c', Cursor.ofList? tokens = some c ∧ parser.run c = .ok (p, c') ∧
      c'.tokens = [.eof] := by
  cases tokens with
  | nil => simp at htokens
  | cons t tail =>
    have hrun : ∃ c', parser.run ⟨t, tail, false⟩ = .ok (p, c') := by
      unfold ofTokens Cursor.ofList? at h
      cases hr : parser.run ⟨t, tail, false⟩ with
      | error e => simp [hr, Except.map] at h
      | ok r =>
        simp only [hr, Except.map, Except.ok.injEq] at h
        exact ⟨r.2, by rw [← h]⟩
    obtain ⟨c', hrun⟩ := hrun
    have hc : Cursor.Ended ⟨t, tail, false⟩ := ⟨rfl, ts, htokens, heof⟩
    obtain ⟨hc', us, hus, hp⟩ := reads_program hc p c' hrun
    have hend : c'.current = .eof := by
      simpa [Cursor.atEnd, hc'.notPast] using atEnd_of_run hrun
    have hlast := hc'.tokens_eq hend
    refine ⟨?_, _, c', rfl, hrun, hlast⟩
    rw [hlast] at hus
    rw [List.append_cancel_right (htokens.symm.trans hus)]
    exact hp

/-- Stores through a name in parentheses and through another address, operators of five levels, a
type with suffixes and an `else if`. -/
theorem Program.isProgram_of_tokens_of_stores : ∃ tokens ts p,
    Token.ofSource "fn f() { *(p) = -1 - 2 * p as u8*(16) - 3 || 4; **p = 5;
      if (a) { } else if (b) { } }" = .ok tokens ∧
    tokens.map Spanned.token = ts ++ [.eof] ∧ .eof ∉ ts ∧ ofTokens tokens = .ok p ∧
    p = ⟨[.function ⟨"f", [], none,
      [.store "p" (.binary .or
          (.binary .subtract
            (.binary .subtract (.negate (.int 1))
              (.binary .multiply (.int 2) (.cast (.var "p") "u8*(16)")))
            (.int 3))
          (.int 4)),
        .storeAt (.deref (.var "p")) (.int 5),
        .branch (.mk (.var "a") []) [.mk (.var "b") []] none]⟩]⟩ ∧
    IsProgram ts p := by
  have hsource : ofSource "fn f() { *(p) = -1 - 2 * p as u8*(16) - 3 || 4; **p = 5;
      if (a) { } else if (b) { } }" = .ok ⟨[.function ⟨"f", [], none,
      [.store "p" (.binary .or
          (.binary .subtract
            (.binary .subtract (.negate (.int 1))
              (.binary .multiply (.int 2) (.cast (.var "p") "u8*(16)")))
            (.int 3))
          (.int 4)),
        .storeAt (.deref (.var "p")) (.int 5),
        .branch (.mk (.var "a") []) [.mk (.var "b") []] none]⟩]⟩ := by
    cbv
  obtain ⟨tokens, hscan, htokens⟩ := except_bind_eq_ok.1 hsource
  obtain ⟨ts, hts, heof, -⟩ := Lexer.isLexical_of_scan hscan
  exact ⟨tokens, ts, _, hscan, hts, heof, htokens, rfl, (isProgram_of_tokens hts heof htokens).1⟩

end GLang
