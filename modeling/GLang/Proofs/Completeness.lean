import GLang.Proofs.CastEnds

/-!
# Which programs of the grammar are accepted

Each parser has one lemma: before tokens that can follow it, it reads what the grammar derives, if
the casts in it end. Its tree is not always the tree of the derivation, as the grammar is ambiguous
where a star follows a cast.

* `Grammar.IsProgram.eof_notMem`: no end mark is derived.
* `Parser.exists_takes_many`: all loops. `Stmt.takes_block`, `Item.takes_item`: blocks and items.
* `Program.exists_ofTokens_iff_castsEnd`: a program of the grammar is accepted exactly if its casts
  end. `Program.not_ofTokens_of_isProgram`: there are programs whose casts do not.
-/

namespace GLang

open Grammar GLang.Parser

variable {ts us rest : List Token} {t : Token}

/-! ### No end mark is derived -/

namespace Grammar

theorem eof_notMem_of_maybe {α : Type} {R : List Token → α → Prop} {o : Option α}
    (hR : ∀ us a, R us a → Token.eof ∉ us) (h : Maybe R ts o) : .eof ∉ ts := by
  cases h with
  | none => simp
  | some ha => exact hR _ _ ha

theorem eof_notMem_of_many {α : Type} {R : List Token → α → Prop} {as : List α}
    (hR : ∀ us a, R us a → Token.eof ∉ us) (h : Many R ts as) : .eof ∉ ts := by
  induction h with
  | nil => simp
  | cons ha _ ih => simp [hR _ _ ha, ih]

theorem eof_notMem_of_listed {α : Type} {R : List Token → α → Prop} {as : List α}
    (hR : ∀ us a, R us a → Token.eof ∉ us) (h : Listed R ts as) : .eof ∉ ts := by
  cases h with
  | nil => simp
  | some h =>
    induction h with
    | one ha => exact hR _ _ ha
    | cons ha _ ih => simp [hR _ _ ha, ih]

theorem IsType.eof_notMem {text : String} (h : IsType ts text) : .eof ∉ ts := by
  obtain ⟨x, h⟩ := h
  have hsuffixes := eof_notMem_of_many (fun us _ hs => by cases hs <;> simp [parens]) h
  simpa using hsuffixes

mutual

theorem IsExpr.eof_notMem {level : Precedence} {ts : List Token} {e : Expr} :
    IsExpr level ts e → .eof ∉ ts
  | .tighter h => h.eof_notMem
  | .binary _ hl hr => by simp [hl.eof_notMem, hr.eof_notMem]
  | .cast he ht => by simp [he.eof_notMem, ht.eof_notMem]
  | .negate h => by simp [h.eof_notMem]
  | .deref h => by simp [h.eof_notMem]
  | .call f (.some h) => by simp [parens, eof_notMem_of_arguments h]
  | .call f .nil => by simp [parens]
  | .parens h => by simp [Grammar.parens, h.eof_notMem]
  | .addressOf _ | .stepBefore _ _ | .stepAfter _ _ | .int _ | .str _ | .var _ => by simp

theorem eof_notMem_of_arguments {ts : List Token} {es : List Expr} :
    Separated (IsExpr .or) ts es → .eof ∉ ts
  | .one h => h.eof_notMem
  | .cons h hs => by simp [h.eof_notMem, eof_notMem_of_arguments hs]

end

theorem IsDeclaration.eof_notMem {s : Stmt} (h : IsDeclaration ts s) : .eof ∉ ts := by
  cases h with
  | plain x ht => simp [ht.eof_notMem]
  | initialised x ht he => simp [ht.eof_notMem, he.eof_notMem]

theorem IsSimple.eof_notMem {s : Stmt} (h : IsSimple ts s) : .eof ∉ ts := by
  cases h with
  | assign x he => simp [he.eof_notMem]
  | store ha he | storeAt ha _ he => simp [ha.eof_notMem, he.eof_notMem]
  | step x hop => simp
  | run f h => simp [parens, eof_notMem_of_listed (fun _ _ => IsExpr.eof_notMem) h]

theorem IsOpening.eof_notMem {s : Stmt} (h : IsOpening ts s) : .eof ∉ ts := by
  cases h with
  | declaration h => exact h.eof_notMem
  | simple h => exact h.eof_notMem

mutual

theorem IsStmt.eof_notMem {ts : List Token} {s : Stmt} : IsStmt ts s → .eof ∉ ts
  | .declare h => by simp [h.eof_notMem]
  | .simple h => by simp [h.eof_notMem]
  | .branch hfirst hothers .none => by
    simp [hfirst.eof_notMem, eof_notMem_of_elseIfs hothers]
  | .branch hfirst hothers (.some (.mk hb)) => by
    simp [hfirst.eof_notMem, eof_notMem_of_elseIfs hothers, hb.eof_notMem]
  | .whileLoop hc hb => by simp [parens, hc.eof_notMem, hb.eof_notMem]
  | .forLoop hinit hc hstep hb => by
    simp [parens, eof_notMem_of_maybe (fun _ _ => IsOpening.eof_notMem) hinit,
      eof_notMem_of_maybe (fun _ _ => IsExpr.eof_notMem) hc,
      eof_notMem_of_maybe (fun _ _ => IsSimple.eof_notMem) hstep, hb.eof_notMem]
  | .breakLoop | .continueLoop => by simp
  | .ret h => by simp [eof_notMem_of_maybe (fun _ _ => IsExpr.eof_notMem) h]

theorem IsBlock.eof_notMem {ts : List Token} {body : Block} : IsBlock ts body → .eof ∉ ts
  | .mk h => by simp [braces, eof_notMem_of_statements h]

theorem IsArm.eof_notMem {ts : List Token} {arm : Arm} : IsArm ts arm → .eof ∉ ts
  | .mk hc hb => by simp [parens, hc.eof_notMem, hb.eof_notMem]

theorem eof_notMem_of_statements {ts : List Token} {body : List Stmt} :
    Many IsStmt ts body → .eof ∉ ts
  | .nil => by simp
  | .cons h hs => by simp [h.eof_notMem, eof_notMem_of_statements hs]

theorem eof_notMem_of_elseIfs {ts : List Token} {arms : List Arm} :
    Many IsElseIf ts arms → .eof ∉ ts
  | .nil => by simp
  | .cons (.mk h) hs => by simp [h.eof_notMem, eof_notMem_of_elseIfs hs]

end

theorem IsBinding.eof_notMem {b : Binding} (h : IsBinding ts b) : .eof ∉ ts := by
  obtain ⟨x, ht⟩ := h
  simp [ht.eof_notMem]

theorem IsField.eof_notMem {b : Binding} (h : IsField ts b) : .eof ∉ ts := by
  obtain ⟨hb⟩ := h
  simp [hb.eof_notMem]

theorem IsResult.eof_notMem {type : String} (h : IsResult ts type) : .eof ∉ ts := by
  obtain ⟨ht⟩ := h
  simp [ht.eof_notMem]

theorem IsHeader.eof_notMem {decl : FunctionDecl} (h : IsHeader ts decl) : .eof ∉ ts := by
  obtain ⟨f, hparams, hresult⟩ := h
  simp [parens, eof_notMem_of_listed (fun _ _ => IsBinding.eof_notMem) hparams,
    eof_notMem_of_maybe (fun _ _ => IsResult.eof_notMem) hresult]

theorem IsItem.eof_notMem {item : Item} (h : IsItem ts item) : .eof ∉ ts := by
  cases h with
  | external h => simp [h.eof_notMem]
  | struct s h => simp [braces, eof_notMem_of_many (fun _ _ => IsField.eof_notMem) h]
  | function h hb => simp [h.eof_notMem, hb.eof_notMem]

theorem IsProgram.eof_notMem {p : Program} (h : IsProgram ts p) : .eof ∉ ts := by
  obtain ⟨h⟩ := h
  exact eof_notMem_of_many (fun _ _ => IsItem.eof_notMem) h

end Grammar

/-! ### Types and loops -/

theorem Parser.takes_typeDescriptor_of_noSuffix {text : String} (h : IsType ts text)
    (hno : NoSuffix rest) : Takes typeDescriptor ts rest text :=
  takes_typeDescriptor h fun _ => Cursor.atTypeSuffix_of_noSuffix hno

theorem Parser.takes_keyword {β : Type} {k : Keyword} {f : Unit → Parser β} {b : β}
    (h : Takes (f ()) ts rest b) : Takes (keyword k >>= f) (.keyword k :: ts) rest b :=
  takes_expect (by simp) h

/-- **All loops.** `P` is what holds of the tokens after an item: those of the next item or, at
last, those after the loop. -/
theorem Parser.exists_takes_many {α β : Type} {R : List Token → α → Prop} {P : List Token → Prop}
    {more : Cursor → Bool} {item : Parser β} {as : List α} (h : Many R ts as) (hrest : P rest)
    (hfirst : ∀ us a tail, R us a → 0 < us.length ∧ P (us ++ tail) ∧
      ∀ c : Cursor, c.Ended → c.tokens = us ++ tail → more c)
    (hitem : ∀ us a tail, R us a → us.length ≤ ts.length → P tail → castsEnd (us ++ tail) →
      ∃ b, Takes item us tail b)
    (hstop : ∀ c : Cursor, c.tokens = rest → more c = false) (hend : castsEnd (ts ++ rest)) :
    ∃ bs, Takes (many more item) ts rest bs := by
  have hloop : ∃ bs, ∀ bound : List Spanned, ts.length < bound.length →
      Takes (manyWithin more item bound) ts rest bs := by
    induction h with
    | nil => exact ⟨[], fun bound => takes_manyWithin_nil hstop⟩
    | @cons ts us a as ha hs ih =>
      rw [List.length_append] at hitem
      rw [List.append_assoc] at hend
      have hP : P (us ++ rest) := by
        cases hs with
        | nil => exact hrest
        | cons hb _ =>
          rw [List.append_assoc]
          exact (hfirst _ _ _ hb).2.1
      obtain ⟨bs, hbs⟩ := ih (fun us a tail hu hlen => hitem us a tail hu (by omega))
        (castsEnd_of_append _ hend)
      obtain ⟨b, hb⟩ := hitem ts a (us ++ rest) ha (by omega) hP hend
      obtain ⟨hpos, -, hmore⟩ := hfirst ts a (us ++ rest) ha
      refine ⟨b :: bs, fun bound hbound => ?_⟩
      obtain ⟨s, bound, rfl⟩ := List.exists_cons_of_length_pos (Nat.zero_lt_of_lt hbound)
      rw [List.length_append, List.length_cons] at hbound
      exact takes_manyWithin_cons hmore hb (hbs bound (by omega))
  obtain ⟨bs, hbs⟩ := hloop
  exact ⟨bs, takes_many hbs⟩

/-! ### Statements -/

namespace Stmt

open GLang.Expr

theorem takes_declaration {s : Stmt} (h : IsDeclaration ts s)
    (hend : castsEnd (ts ++ .sign .semicolon :: rest)) :
    ∃ s', Takes declaration ts (.sign .semicolon :: rest) s' := by
  cases h with
  | plain x ht =>
    refine ⟨_, takes_keyword (takes_ident (takes_sign (takes_bind_nil
      (takes_typeDescriptor_of_noSuffix ht ?_) (takes_sees rfl (takes_pure _)))))⟩
    exact EndsExpr.noSuffix (.inr (.inr rfl))
  | @initialised ts us type e x ht he =>
    have hvalue : castsEnd (us ++ .sign .semicolon :: rest) :=
      castsEnd_of_append (.keyword .var :: .name x :: .sign .colon :: (ts ++ [.sign .equals]))
        (by simpa using hend)
    obtain ⟨e', he'⟩ := takes_expression (.inr (.inr rfl)) he hvalue
    refine ⟨_, takes_keyword (takes_ident (takes_sign (takes_bind
      (takes_typeDescriptor_of_noSuffix ht ?_) (takes_sees rfl (takes_advance (by simp)
      (takes_map _ he'))))))⟩
    rintro u ⟨⟩
    exact ⟨by simp, by simp⟩

/-- A store. Its address is an operand, whatever its tree. -/
theorem takes_store {address e : Expr} (ht : EndsExpr t) (ha : IsExpr .unary ts address)
    (he : IsExpr .or us e)
    (hend : castsEnd (.sign .star :: (ts ++ .sign .equals :: us) ++ t :: rest)) :
    ∃ s, Takes simple (.sign .star :: (ts ++ .sign .equals :: us)) (t :: rest) s := by
  have haddress : castsEnd (ts ++ .sign .equals :: (us ++ t :: rest)) :=
    castsEnd_of_append [.sign .star] (by simpa using hend)
  obtain ⟨address', ha'⟩ := takes_unaryParser (t := .sign .equals) ⟨rfl, by simp⟩
    (ha.isOperand (.inl rfl)) haddress
  obtain ⟨e', he'⟩ := takes_expression ht he
    (castsEnd_of_append (ts ++ [.sign .equals]) (by simpa using haddress))
  cases address' <;>
    exact ⟨_, takes_sees rfl (takes_advance (by simp) (takes_bind ha' (takes_sign
      (takes_bind_nil he' (takes_pure _)))))⟩

theorem takes_simple {s : Stmt} (ht : EndsExpr t) (h : IsSimple ts s)
    (hend : castsEnd (ts ++ t :: rest)) : ∃ s', Takes simple ts (t :: rest) s' := by
  cases h with
  | @assign ts e x he =>
    obtain ⟨e', he'⟩ := takes_expression ht he
      (castsEnd_of_append [.name x, .sign .equals] hend)
    exact ⟨_, takes_sees rfl (takes_ident (takes_current rfl (takes_advance (by simp)
      (takes_map _ he'))))⟩
  | store ha he => exact takes_store ht ha he hend
  | storeAt ha _ he => exact takes_store ht ha he hend
  | step x hop =>
    cases hop <;>
      exact ⟨_, takes_sees rfl <| takes_ident <| takes_current rfl <|
        takes_advance (by simp) (takes_pure _)⟩
  | run f h =>
    obtain ⟨args, hargs⟩ := takes_arguments h (castsEnd_of_append [.name f] hend)
    exact ⟨_, takes_sees rfl (takes_ident (takes_current rfl (takes_map _ hargs)))⟩

/-- `block` reads the blocks that are shorter than `n`, if their casts end. -/
def TakesBlocks (block : Parser Block) (n : Nat) : Prop :=
  ∀ ts body rest, IsBlock ts body → ts.length < n → castsEnd (ts ++ rest) →
    ∃ body', Takes block ts rest body'

theorem takes_condition {e : Expr} (h : IsExpr .or ts e) (hend : castsEnd (parens ts ++ rest)) :
    ∃ e', Takes (parenthesized Expr.parser) (parens ts) rest e' := by
  obtain ⟨e', he'⟩ := takes_expression (.inl rfl) h
    (castsEnd_of_append [.sign .openParen] (by simpa [parens] using hend))
  exact ⟨e', takes_parenthesized he'⟩

theorem takes_unlessAt_none {α : Type} {stop : Sign} {item : Parser α} :
    Takes (unlessAt stop item) [] (.sign stop :: rest) none := by
  refine takes_sees rfl ?_
  rw [if_pos (decide_eq_true rfl)]
  exact takes_pure none

theorem takes_unlessAt_some {α : Type} {stop : Sign} {item : Parser α} {a : α}
    (hne : t ≠ .sign stop) (h : Takes item (t :: ts) rest a) :
    Takes (unlessAt stop item) (t :: ts) rest (some a) := by
  refine takes_sees rfl ?_
  rw [if_neg (by simpa using hne)]
  exact takes_map some h

section

variable {block : Parser Block} {n : Nat}

theorem takes_armOver (hblock : TakesBlocks block n) {arm : Arm} (h : IsArm ts arm)
    (hn : ts.length < n) (hend : castsEnd (ts ++ rest)) :
    ∃ arm', Takes (armOver block) ts rest arm' := by
  cases h with
  | @mk ts us _ _ hc hb =>
    rw [List.append_assoc] at hend
    rw [List.length_append] at hn
    obtain ⟨e, he⟩ := takes_condition hc hend
    obtain ⟨body, hbody⟩ := hblock _ _ rest hb (by omega) (castsEnd_of_append _ hend)
    exact ⟨_, takes_bind he (takes_map _ hbody)⟩

/-- `else` does not come next. -/
def NoElse (ts : List Token) : Prop :=
  ∃ t us, ts = t :: us ∧ t ≠ .keyword .else_

theorem atElseIf_of_noElse {c : Cursor} (h : NoElse rest) (hts : c.tokens = rest) :
    atElseIf c = false := by
  obtain ⟨t, us, rfl, hne⟩ := h
  rw [atElseIf, Cursor.current_of_tokens hts]
  simp [hne]

theorem atElseIf_of_isBlock {c : Cursor} {body : Block} (h : IsBlock ts body)
    (hts : c.tokens = .keyword .else_ :: ts ++ rest) : atElseIf c = false := by
  obtain ⟨_⟩ := h
  rw [atElseIf, Cursor.peek_of_tokens hts]
  simp

theorem takes_elseIfs (hblock : TakesBlocks block n) {arms : List Arm} (h : Many IsElseIf ts arms)
    (hn : ts.length < n) (hstop : ∀ c : Cursor, c.tokens = rest → atElseIf c = false)
    (hend : castsEnd (ts ++ rest)) :
    ∃ arms', Takes (many atElseIf (do advance; advance; armOver block)) ts rest arms' := by
  refine exists_takes_many (P := fun _ => True) h trivial ?_ ?_ hstop hend
  · rintro us a tail ⟨_⟩
    refine ⟨Nat.succ_pos _, trivial, fun c _ hts => ?_⟩
    rw [atElseIf, Cursor.current_of_tokens hts, Cursor.peek_of_tokens hts]
    rfl
  · rintro us a tail ⟨harm⟩ hlen _ hend
    obtain ⟨arm', harm'⟩ := takes_armOver hblock harm (by simp at hlen; omega)
      (castsEnd_of_append [.keyword .else_, .keyword .if_] hend)
    exact ⟨arm', takes_advance (by simp) (takes_advance (by simp) harm')⟩

theorem takes_branchOver (hblock : TakesBlocks block n) {first : Arm} {others : List Arm}
    {otherwise : Option Block} {vs : List Token} (hfirst : IsArm ts first)
    (hothers : Many IsElseIf us others) (helse : Maybe IsElse vs otherwise)
    (hn : (ts ++ us ++ vs).length < n) (hrest : NoElse rest)
    (hend : castsEnd (.keyword .if_ :: (ts ++ us ++ vs) ++ rest)) :
    ∃ s, Takes (branchOver block) (.keyword .if_ :: (ts ++ us ++ vs)) rest s := by
  replace hend : castsEnd (ts ++ (us ++ (vs ++ rest))) :=
    castsEnd_of_append [.keyword .if_] (by simpa using hend)
  simp only [List.length_append] at hn
  obtain ⟨first', hfirst'⟩ := takes_armOver hblock hfirst (by omega) hend
  replace hend := castsEnd_of_append _ hend
  rw [List.append_assoc]
  cases helse with
  | none =>
    obtain ⟨t, tail, rfl, hne⟩ := id hrest
    obtain ⟨others', hothers'⟩ := takes_elseIfs hblock hothers (by omega)
      (fun c => atElseIf_of_noElse hrest) hend
    refine ⟨.branch first' others' none, takes_keyword (takes_bind (by simpa using hfirst')
      (takes_bind hothers' (takes_sees rfl ?_)))⟩
    rw [if_neg (by simpa using hne)]
    exact takes_pure _
  | some helse =>
    obtain ⟨hb⟩ := helse
    obtain ⟨body', hbody'⟩ := hblock _ _ rest hb (by simp at hn; omega)
      (castsEnd_of_append (us ++ [.keyword .else_]) (by simpa using hend))
    obtain ⟨others', hothers'⟩ := takes_elseIfs hblock hothers (by omega)
      (fun c => atElseIf_of_isBlock hb) hend
    exact ⟨_, takes_keyword (takes_bind (by simpa using hfirst') (takes_bind hothers'
      (takes_sees rfl (takes_advance (by simp) (takes_map _ hbody')))))⟩

theorem exists_cons_of_isSimple {s : Stmt} (h : IsSimple ts s) : ∃ t us, ts = t :: us ∧
    t ≠ .sign .semicolon ∧ t ≠ .sign .closeParen ∧ t ≠ .sign .closeBrace ∧ ∀ k, t ≠ .keyword k := by
  cases h <;> exact ⟨_, _, rfl, by simp, by simp, by simp, by simp⟩

theorem exists_cons_of_isDeclaration {s : Stmt} (h : IsDeclaration ts s) :
    ∃ us, ts = .keyword .var :: us := by
  cases h <;> exact ⟨_, rfl⟩

theorem takes_init {init : Option Stmt} (h : Maybe IsOpening ts init)
    (hend : castsEnd (ts ++ .sign .semicolon :: rest)) :
    ∃ init', Takes (unlessAt .semicolon do if ← sees (.keyword .var) then declaration else simple)
      ts (.sign .semicolon :: rest) init' := by
  cases h with
  | none => exact ⟨none, takes_unlessAt_none⟩
  | some h =>
    cases h with
    | declaration h =>
      obtain ⟨s', hs'⟩ := takes_declaration h hend
      obtain ⟨us, rfl⟩ := exists_cons_of_isDeclaration h
      exact ⟨some s', takes_unlessAt_some (by simp) (takes_sees rfl hs')⟩
    | simple h =>
      obtain ⟨s', hs'⟩ := takes_simple (.inr (.inr rfl)) h hend
      obtain ⟨t, us, rfl, hne, -, -, hkeyword⟩ := exists_cons_of_isSimple h
      refine ⟨some s', takes_unlessAt_some hne (takes_sees rfl ?_)⟩
      rw [if_neg (by simpa using hkeyword .var)]
      exact hs'

theorem takes_value {value : Option Expr} (h : Maybe (IsExpr .or) ts value)
    (hend : castsEnd (ts ++ .sign .semicolon :: rest)) :
    ∃ value', Takes (unlessAt .semicolon Expr.parser) ts (.sign .semicolon :: rest) value' := by
  cases h with
  | none => exact ⟨none, takes_unlessAt_none⟩
  | some h =>
    obtain ⟨e', he'⟩ := takes_expression (.inr (.inr rfl)) h hend
    obtain ⟨t, us, rfl, hne⟩ := h.exists_cons
    exact ⟨some e', takes_unlessAt_some (fun heq => hne (.inr (.inr heq))) he'⟩

theorem takes_increment {increment : Option Stmt} (h : Maybe IsSimple ts increment)
    (hend : castsEnd (ts ++ .sign .closeParen :: rest)) :
    ∃ increment',
      Takes (unlessAt .closeParen simple) ts (.sign .closeParen :: rest) increment' := by
  cases h with
  | none => exact ⟨none, takes_unlessAt_none⟩
  | some h =>
    obtain ⟨s', hs'⟩ := takes_simple (.inl rfl) h hend
    obtain ⟨t, us, rfl, -, hne, -, -⟩ := exists_cons_of_isSimple h
    exact ⟨some s', takes_unlessAt_some hne hs'⟩

theorem takes_forOver (hblock : TakesBlocks block n) {init increment : Option Stmt}
    {condition : Option Expr} {body : Block} {vs ws : List Token} (hinit : Maybe IsOpening ts init)
    (hc : Maybe (IsExpr .or) us condition) (hstep : Maybe IsSimple vs increment)
    (hb : IsBlock ws body) (hn : ws.length < n)
    (hend : castsEnd (.keyword .for_ ::
      (parens (ts ++ .sign .semicolon :: (us ++ .sign .semicolon :: vs)) ++ ws) ++ rest)) :
    ∃ s, Takes (forOver block) (.keyword .for_ ::
      (parens (ts ++ .sign .semicolon :: (us ++ .sign .semicolon :: vs)) ++ ws)) rest s := by
  replace hend : castsEnd (ts ++ .sign .semicolon :: (us ++ .sign .semicolon ::
      (vs ++ .sign .closeParen :: (ws ++ rest)))) :=
    castsEnd_of_append [.keyword .for_, .sign .openParen] (by simpa [parens] using hend)
  obtain ⟨init', hinit'⟩ := takes_init hinit hend
  replace hend := castsEnd_of_append [_] (castsEnd_of_append _ hend)
  obtain ⟨condition', hc'⟩ := takes_value hc hend
  replace hend := castsEnd_of_append [_] (castsEnd_of_append _ hend)
  obtain ⟨increment', hstep'⟩ := takes_increment hstep hend
  replace hend := castsEnd_of_append [_] (castsEnd_of_append _ hend)
  obtain ⟨body', hbody'⟩ := hblock ws body rest hb hn hend
  have htokens : parens (ts ++ .sign .semicolon :: (us ++ .sign .semicolon :: vs)) ++ ws =
      .sign .openParen :: (ts ++ .sign .semicolon :: (us ++ .sign .semicolon ::
        (vs ++ .sign .closeParen :: ws))) := by
    simp [parens]
  rw [htokens]
  exact ⟨_, takes_keyword (takes_sign (takes_bind (by simpa using hinit') (takes_sign (takes_bind
    (by simpa using hc') (takes_sign (takes_bind (by simpa using hstep') (takes_sign
    (takes_map _ hbody'))))))))⟩

theorem takes_terminated {item : Parser Stmt} {s : Stmt}
    (h : Takes item ts (.sign .semicolon :: rest) s) :
    Takes (terminated item) (ts ++ [.sign .semicolon]) rest s :=
  takes_bind h (takes_sign (takes_pure s))

theorem takes_word {k : Keyword} {s : Stmt} :
    Takes (terminated do advance; return s) [.keyword k, .sign .semicolon] rest s := by
  have hword : Takes (do advance; return s) [.keyword k] (.sign .semicolon :: rest) s :=
    takes_advance (by simp) (takes_pure s)
  exact takes_terminated hword

theorem takes_statementOver (hblock : TakesBlocks block n) {s : Stmt} (h : IsStmt ts s)
    (hn : ts.length ≤ n) (hrest : NoElse rest) (hend : castsEnd (ts ++ rest)) :
    ∃ s', Takes (statementOver block) ts rest s' := by
  cases h with
  | declare h =>
    rw [List.append_assoc] at hend
    obtain ⟨s', hs'⟩ := takes_declaration h hend
    obtain ⟨us, rfl⟩ := exists_cons_of_isDeclaration h
    exact ⟨s', takes_current rfl (takes_terminated hs')⟩
  | simple h =>
    rw [List.append_assoc] at hend
    obtain ⟨s', hs'⟩ := takes_simple (.inr (.inr rfl)) h hend
    have hterminated := takes_terminated hs'
    cases h <;> exact ⟨s', takes_current rfl hterminated⟩
  | branch hfirst hothers helse =>
    obtain ⟨s', hs'⟩ := takes_branchOver hblock hfirst hothers helse hn hrest hend
    exact ⟨s', takes_current rfl hs'⟩
  | @whileLoop ts us _ _ hc hb =>
    replace hend : castsEnd (parens ts ++ (us ++ rest)) :=
      castsEnd_of_append [.keyword .while_] (by simpa using hend)
    simp only [List.length_cons, List.length_append, length_parens] at hn
    obtain ⟨e', he'⟩ := takes_condition hc hend
    obtain ⟨body', hbody'⟩ := hblock _ _ rest hb (by omega) (castsEnd_of_append _ hend)
    exact ⟨_, takes_current rfl (takes_advance (by simp) (takes_bind he' (takes_map _ hbody')))⟩
  | forLoop hinit hc hstep hb =>
    simp only [List.length_cons, List.length_append, length_parens] at hn
    obtain ⟨s', hs'⟩ := takes_forOver hblock hinit hc hstep hb (by omega) hend
    exact ⟨s', takes_current rfl hs'⟩
  | breakLoop => exact ⟨_, takes_current rfl takes_word⟩
  | continueLoop => exact ⟨_, takes_current rfl takes_word⟩
  | @ret ts _ h =>
    have hinner : castsEnd (ts ++ .sign .semicolon :: rest) :=
      castsEnd_of_append [.keyword .return_] (by simpa using hend)
    obtain ⟨value', hvalue'⟩ := takes_value h hinner
    have hreturn : Takes (do advance; return Stmt.ret (← unlessAt .semicolon Expr.parser))
        (.keyword .return_ :: ts) (.sign .semicolon :: rest) (.ret value') :=
      takes_advance (by simp) (takes_map _ hvalue')
    exact ⟨_, takes_current rfl (takes_terminated hreturn)⟩

/-- No statement begins with what ends a block or goes on with an `if` statement. -/
theorem exists_cons_of_isStmt {s : Stmt} (h : IsStmt ts s) : ∃ t us, ts = t :: us ∧
    t ≠ .sign .closeBrace ∧ t ≠ .keyword .else_ ∧ t ≠ .eof := by
  cases h with
  | declare h =>
    obtain ⟨us, rfl⟩ := exists_cons_of_isDeclaration h
    exact ⟨_, _, rfl, by simp, by simp, by simp⟩
  | simple h => cases h <;> exact ⟨_, _, rfl, by simp, by simp, by simp⟩
  | _ => exact ⟨_, _, rfl, by simp, by simp, by simp⟩

theorem takes_inBlock {statement : Parser Stmt} {s : Stmt} (hne : t ≠ .eof)
    (h : Takes statement (t :: ts) rest s) : Takes (inBlock statement) (t :: ts) rest s := by
  refine takes_get_ended fun c hc hts => ?_
  rw [Cursor.atEnd, hc.notPast, Cursor.current_of_tokens hts]
  rw [if_neg (by simpa using hne)]
  exact h

theorem takes_statements (hblock : TakesBlocks block n) {body : Block} (h : Many IsStmt ts body)
    (hn : ts.length ≤ n) (hend : castsEnd (ts ++ .sign .closeBrace :: rest)) :
    ∃ body', Takes (many (·.current ≠ .sign .closeBrace) (inBlock (statementOver block))) ts
      (.sign .closeBrace :: rest) body' := by
  refine exists_takes_many (P := NoElse) h ⟨_, _, rfl, by simp⟩ ?_ ?_ ?_ hend
  · intro us a tail hs
    obtain ⟨t, us, rfl, hclose, helse, -⟩ := exists_cons_of_isStmt hs
    refine ⟨Nat.succ_pos _, ⟨t, us ++ tail, rfl, helse⟩, fun c _ hts => ?_⟩
    rw [Cursor.current_of_tokens hts]
    exact decide_eq_true hclose
  · intro us a tail hs hus htail hend
    obtain ⟨s', hs'⟩ := takes_statementOver hblock hs (hus.trans hn) htail hend
    obtain ⟨t, us, rfl, -, -, hne⟩ := exists_cons_of_isStmt hs
    exact ⟨s', takes_inBlock hne hs'⟩
  · intro c hts
    rw [Cursor.current_of_tokens hts]
    simp

end

theorem takesBlocks_blockWithin (bound : List Spanned) :
    TakesBlocks (blockWithin bound) bound.length := by
  induction bound with
  | nil =>
    intro ts body rest _ hn
    cases hn
  | cons s bound ih =>
    rintro _ body rest ⟨h⟩ hn hend
    rename_i ts
    have hinner : castsEnd (ts ++ .sign .closeBrace :: rest) :=
      castsEnd_of_append [.sign .openBrace] (by simpa [braces] using hend)
    obtain ⟨body', hbody'⟩ := takes_statements ih h (by simp [braces] at hn; omega) hinner
    exact ⟨body', takes_sign (takes_bind hbody' (takes_sign (takes_pure _)))⟩

theorem blockWithin_congr {bound bound' : List Spanned} (h : bound.length = bound'.length) :
    blockWithin bound = blockWithin bound' := by
  induction bound generalizing bound' with
  | nil =>
    obtain rfl := List.length_eq_zero_iff.1 h.symm
    rfl
  | cons s bound ih =>
    cases bound' with
    | nil => cases h
    | cons s' bound' => rw [blockWithin, blockWithin, ih (Nat.succ.inj h)]

theorem takes_block {body : Block} (h : IsBlock ts body) (hend : castsEnd (ts ++ rest)) :
    ∃ body', Takes blockParser ts rest body' :=
  exists_takes_get (fun _ _ => blockWithin_congr) fun bound hb =>
    takesBlocks_blockWithin bound ts body rest h (by simp at hb; omega) hend

end Stmt

/-! ### Programs -/

theorem Binding.takes_binding {role : NameRole} {b : Binding} (h : IsBinding ts b)
    (hno : NoSuffix rest) : Takes (Binding.parser role) ts rest b := by
  cases h with
  | mk x ht =>
    exact takes_ident (takes_sign (takes_map _ (takes_typeDescriptor_of_noSuffix ht hno)))

theorem FunctionDecl.takes_header {decl : FunctionDecl} (h : IsHeader ts decl)
    (ht : t = .sign .semicolon ∨ t = .sign .openBrace) : Takes header ts (t :: rest) decl := by
  have hno : NoSuffix (t :: rest) := by
    rintro u ⟨⟩
    rcases ht with rfl | rfl <;> exact ⟨by simp, by simp⟩
  obtain ⟨f, hparams, hresult⟩ := h
  refine takes_keyword (takes_ident (takes_bind (takes_listed ?_ ?_ hparams) ?_))
  · intro ts b t rest hb ht
    refine Binding.takes_binding hb ?_
    rcases ht with rfl | rfl
    · exact EndsExpr.noSuffix (.inr (.inl rfl))
    · exact EndsExpr.noSuffix (.inl rfl)
  · rintro ts b ⟨x, _⟩
    exact ⟨_, _, rfl, by simp⟩
  · cases hresult with
    | none =>
      refine takes_sees rfl ?_
      rw [if_neg (by rcases ht with rfl | rfl <;> simp)]
      exact takes_pure _
    | some hresult =>
      obtain ⟨htype⟩ := hresult
      exact takes_sees rfl (takes_advance (by simp) (takes_map _
        (takes_typeDescriptor_of_noSuffix htype hno)))

theorem StructDecl.takes_fields {fields : List Binding} (h : Many IsField ts fields)
    (hend : castsEnd (ts ++ .sign .closeBrace :: rest)) :
    ∃ fields', Takes (many (·.current ≠ .sign .closeBrace) do
      let field ← Binding.parser .field
      sign .semicolon
      return field) ts (.sign .closeBrace :: rest) fields' := by
  refine exists_takes_many (P := fun _ => True) h trivial ?_ ?_ ?_ hend
  · rintro us b tail ⟨⟨x, _⟩⟩
    refine ⟨by simp, trivial, fun c _ hts => ?_⟩
    rw [Cursor.current_of_tokens hts]
    simp
  · rintro us b tail ⟨hb⟩ _ _ _
    exact ⟨b, takes_bind (Binding.takes_binding hb (EndsExpr.noSuffix (.inr (.inr rfl))))
      (takes_sign (takes_pure _))⟩
  · intro c hts
    rw [Cursor.current_of_tokens hts]
    simp

theorem Item.takes_item {item : Item} (h : IsItem ts item) (hend : castsEnd (ts ++ rest)) :
    ∃ item', Takes Item.parser ts rest item' := by
  cases h with
  | external h =>
    exact ⟨_, takes_current rfl (takes_advance (by simp) (takes_bind
      (FunctionDecl.takes_header h (.inl rfl)) (takes_sign (takes_pure _))))⟩
  | @struct ts _ s h =>
    have hinner : castsEnd (ts ++ .sign .closeBrace :: rest) :=
      castsEnd_of_append [.keyword .struct, .name s, .sign .openBrace]
        (by simpa [braces] using hend)
    obtain ⟨fields', hfields'⟩ := StructDecl.takes_fields h hinner
    exact ⟨_, takes_current rfl (takes_map _ (takes_keyword (takes_ident (takes_sign
      (takes_bind hfields' (takes_sign (takes_pure _)))))))⟩
  | @function ts us decl body h hb =>
    rw [List.append_assoc] at hend
    obtain ⟨body', hbody'⟩ := Stmt.takes_block hb (castsEnd_of_append _ hend)
    have hheader : Takes FunctionDecl.header ts (us ++ rest) decl := by
      obtain ⟨_⟩ := hb
      exact FunctionDecl.takes_header h (.inr rfl)
    obtain ⟨f, _, _⟩ := h
    exact ⟨_, takes_current rfl (takes_bind hheader (takes_map _ hbody'))⟩

theorem exists_cons_of_isItem {item : Item} (h : IsItem ts item) :
    ∃ t us, ts = t :: us ∧ t ≠ .eof := by
  cases h with
  | function h _ =>
    obtain ⟨f, _, _⟩ := h
    exact ⟨_, _, rfl, by simp⟩
  | _ => exact ⟨_, _, rfl, by simp⟩

namespace Program

theorem takes_program {p : Program} (h : IsProgram ts p)
    (hend : castsEnd (ts ++ [.eof])) :
    ∃ p', Takes parser ts [.eof] p' := by
  obtain ⟨h⟩ := h
  have hitems : ∃ items, Takes (many (fun c => !c.atEnd) Item.parser) ts [.eof] items := by
    refine exists_takes_many (P := fun _ => True) h trivial ?_ ?_ ?_ hend
    · intro us a tail hi
      obtain ⟨t, us, rfl, hne⟩ := exists_cons_of_isItem hi
      refine ⟨Nat.succ_pos _, trivial, fun c hc hts => ?_⟩
      rw [Cursor.atEnd, hc.notPast, Cursor.current_of_tokens hts]
      simpa using hne
    · intro us a tail hi _ _ hend
      exact Item.takes_item hi hend
    · intro c hts
      rw [Cursor.atEnd, Cursor.current_of_tokens hts]
      simp
  obtain ⟨items, hitems⟩ := hitems
  exact ⟨_, takes_map _ hitems⟩

theorem afterSuffixes_append_eof (ts : List Token) :
    afterSuffixes (ts ++ [.eof]) = afterSuffixes ts ++ [.eof] := by
  fun_induction afterSuffixes ts with
  | case1 ts ih => exact ih
  | case2 n ts ih => exact ih
  | case3 ts hstar harray =>
    rw [afterSuffixes.eq_3]
    · rintro us hus
      cases ts with
      | nil => cases hus
      | cons t ts =>
        cases hus
        exact hstar _ rfl
    · intro n us hus
      rcases ts with - | ⟨t, - | ⟨u, - | ⟨v, ts⟩⟩⟩
      · cases hus
      · cases hus
      · cases hus
      · cases hus
        exact harray _ _ rfl

theorem castEnds_append_eof (t : Token) (ts : List Token) :
    castEnds t (ts ++ [.eof]) = castEnds t ts := by
  fun_cases castEnds t ts with
  | case1 x ts =>
    rw [List.cons_append, castEnds, afterSuffixes_append_eof]
    cases afterSuffixes ts <;> rfl
  | case2 t ts hcast =>
    rw [castEnds.eq_2]
    rintro x us rfl hts
    cases ts with
    | nil => cases hts
    | cons u ts =>
      cases hts
      exact hcast _ _ rfl rfl

/-- An end mark ends casts. -/
theorem castsEnd_append_eof : castsEnd (ts ++ [.eof]) = castsEnd ts := by
  induction ts with
  | nil => rfl
  | cons t ts ih =>
    rw [List.cons_append, castsEnd, castsEnd, ih, castEnds_append_eof]

/-- **Which programs of the grammar are accepted.** A list of tokens that the grammar derives from a
program, with an end mark after it, is accepted exactly if its casts end. -/
theorem exists_ofTokens_iff_castsEnd {tokens : List Spanned} {p : Program}
    (htokens : tokens.map Spanned.token = ts ++ [.eof]) (h : IsProgram ts p) :
    (∃ q, ofTokens tokens = .ok q) ↔ castsEnd ts := by
  cases tokens with
  | nil => simp at htokens
  | cons t tail =>
    have hc : Cursor.Ended ⟨t, tail, false⟩ := ⟨rfl, ts, htokens, h.eof_notMem⟩
    have hts : Cursor.tokens ⟨t, tail, false⟩ = ts ++ [.eof] := htokens
    have hrun : (∃ q, ofTokens (t :: tail) = .ok q) ↔
        ∃ q c', parser.run ⟨t, tail, false⟩ = .ok (q, c') := by
      show (∃ q, (parser.run ⟨t, tail, false⟩).map Prod.fst = .ok q) ↔ _
      cases parser.run ⟨t, tail, false⟩ with
      | error e => simp [Except.map]
      | ok r => exact ⟨fun _ => ⟨r.1, r.2, rfl⟩, fun _ => ⟨r.1, rfl⟩⟩
    rw [hrun]
    constructor
    · rintro ⟨q, c', hq⟩
      obtain ⟨hc', hback⟩ := checks_program hc q c' hq
      have heof : c'.current = .eof := by
        simpa [Cursor.atEnd, hc'.notPast] using atEnd_of_run hq
      have hlast : castsEnd c'.tokens := by
        rw [hc'.tokens_eq heof]
        rfl
      rw [← castsEnd_append_eof, ← hts]
      exact (hback trivial hlast).2
    · intro hend
      obtain ⟨q, hq⟩ := takes_program h (castsEnd_append_eof.trans hend)
      obtain ⟨c', hrun, -⟩ := hq _ hc hts
      exact ⟨q, c', hrun⟩

/-- `fn f() { x = a as i32 * …; }` -/
def productTokens (us : List Token) : List Token :=
  .keyword .fn :: .name "f" :: .sign .openParen :: .sign .closeParen :: .sign .openBrace ::
    .name "x" :: .sign .equals :: .name "a" :: .keyword .as_ :: .name "i32" :: .sign .star ::
    (us ++ [.sign .semicolon, .sign .closeBrace])

/-- The grammar derives the product of the cast and any operand. -/
theorem isProgram_product {us : List Token} {r : Expr} (h : IsExpr .unary us r) :
    IsProgram (productTokens us)
      ⟨[.function ⟨"f", [], none,
        [.assign "x" (.binary .multiply (.cast (.var "a") "i32") r)]⟩]⟩ := by
  have hcast : IsExpr .multiplicative ([.name "a"] ++ .keyword .as_ :: [.name "i32"])
      (.cast (.var "a") ("i32" ++ String.join [])) :=
    .tighter (.cast (.tighter (.tighter (.tighter (.var "a")))) (.mk "i32" .nil))
  have hproduct := IsExpr.binary .multiply hcast (.tighter h)
  have hassign := IsStmt.simple (.assign "x"
    (.tighter (.tighter (.tighter (.tighter (.tighter hproduct))))))
  have hitem := IsItem.function (.mk "f" .nil .none) (.mk (.cons hassign .nil))
  have hprogram := IsProgram.mk (.cons hitem .nil)
  simpa [parens, braces, productTokens] using hprogram

/-- A text and its tokens, without their places. -/
theorem exists_scan {source : String} {ts : List Token}
    (h : (Token.ofSource source).map (·.map Spanned.token) = .ok ts) :
    ∃ tokens, Token.ofSource source = .ok tokens ∧ tokens.map Spanned.token = ts := by
  cases hscan : Token.ofSource source with
  | error e => simp [hscan, Except.map] at h
  | ok tokens =>
    rw [hscan] at h
    exact ⟨tokens, rfl, Except.ok.inj h⟩

/-- A product of a cast and a name is derived, but it is not accepted: the star is read as a part of
the type. -/
theorem not_ofTokens_of_isProgram : ∃ tokens ts p,
    Token.ofSource "fn f() { x = a as i32 * b; }" = .ok tokens ∧
    tokens.map Spanned.token = ts ++ [.eof] ∧
    p = ⟨[.function ⟨"f", [], none,
      [.assign "x" (.binary .multiply (.cast (.var "a") "i32") (.var "b"))]⟩]⟩ ∧
    IsProgram ts p ∧ ∃ e, ofTokens tokens = .error e := by
  have herror : ∃ e, ofSource "fn f() { x = a as i32 * b; }" = .error e := ⟨_, by cbv⟩
  have htokens : (Token.ofSource "fn f() { x = a as i32 * b; }").map (·.map Spanned.token) =
      .ok (productTokens [.name "b"] ++ [.eof]) := by
    cbv
  obtain ⟨e, herror⟩ := herror
  obtain ⟨tokens, hscan, htokens⟩ := exists_scan htokens
  rw [ofSource, hscan] at herror
  exact ⟨tokens, _, _, hscan, htokens, rfl, isProgram_product (.tighter (.tighter (.var "b"))), e,
    herror⟩

/-- The product of a cast and a negated name is accepted, though as a difference. -/
theorem exists_ofTokens_iff_castsEnd_of_difference : ∃ tokens ts p,
    Token.ofSource "fn f() { x = a as i32 * -b; }" = .ok tokens ∧
    tokens.map Spanned.token = ts ++ [.eof] ∧ IsProgram ts p ∧ castsEnd ts ∧
    ((∃ q, ofTokens tokens = .ok q) ↔ castsEnd ts) := by
  have htokens : (Token.ofSource "fn f() { x = a as i32 * -b; }").map (·.map Spanned.token) =
      .ok (productTokens [.sign .minus, .name "b"] ++ [.eof]) := by
    cbv
  obtain ⟨tokens, hscan, htokens⟩ := exists_scan htokens
  have hprogram := isProgram_product (.negate (.tighter (.tighter (.var "b"))))
  exact ⟨tokens, _, _, hscan, htokens, hprogram, rfl, exists_ofTokens_iff_castsEnd htokens hprogram⟩

end Program

end GLang
