import GLang.Proofs.Acceptance

/-!
# Expressions as operands in a row

A type descriptor takes all suffixes that follow it, so a star after the target of a cast is read as
a part of the target, also where the grammar has a product there. This module says which expressions
of the grammar are read to their ends nevertheless.

* `Grammar.castsEnd`: no operand begins after a cast, if its target takes all suffixes that follow.
  It is said of tokens alone, and it can be evaluated.
* `Grammar.IsExpr.continues`: an expression is an operand and what continues it. The levels of the
  operators play no role.
* `Grammar.Continues.absorbs`: suffixes can be moved from what continues an operand to the target
  before it.
* `Expr.Chain.foldr`: operands with operators between them are read by all levels together.
* `Expr.takes_expression`: so an expression whose casts end is read to its end.
-/

namespace GLang

open Grammar

/-! ### Where casts end -/

/-- The tokens that begin an operand and neither a suffix of a type nor an operator with two
operands. An opening parenthesis is one of them, as a suffix is looked for before. -/
def Token.beginsOperand : Token → Bool
  | .name _ | .int _ | .str _ => true
  | .sign .openParen | .sign .ampersand | .sign .plusPlus | .sign .minusMinus => true
  | _ => false

namespace Grammar

/-- What is left after all suffixes of a type. -/
def afterSuffixes : List Token → List Token
  | .sign .star :: ts => afterSuffixes ts
  | .sign .openParen :: .int _ :: .sign .closeParen :: ts => afterSuffixes ts
  | ts => ts

/-- If `t` and `ts` are a cast, then no operand begins after its target. -/
def castEnds : Token → List Token → Bool
  | .keyword .as_, .name _ :: ts => !(afterSuffixes ts).head?.any Token.beginsOperand
  | _, _ => true

/-- After no cast, with all suffixes that its target can take, an operand begins. -/
def castsEnd : List Token → Bool
  | [] => true
  | t :: ts => castEnds t ts && castsEnd ts

section

variable {ts us vs tail : List Token} {t : Token} {e : Expr}

theorem castsEnd_of_append (us : List Token) (h : castsEnd (us ++ ts)) : castsEnd ts := by
  induction us with
  | nil => exact h
  | cons u us ih =>
    rw [List.cons_append, castsEnd, Bool.and_eq_true] at h
    exact ih h.2

theorem afterSuffixes_append {suffixes : List String} (h : Many IsSuffix us suffixes) :
    afterSuffixes (us ++ ts) = afterSuffixes ts := by
  induction h with
  | nil => rfl
  | cons hsuffix _ ih =>
    rw [List.append_assoc, ← ih]
    cases hsuffix with
    | pointer => rfl
    | array n => rfl

end

/-! ### What continues an operand -/

theorem IsOperator.level_unique {level level' : Precedence} {s : Sign} {op op' : BinOp}
    (h : IsOperator level s op) (h' : IsOperator level' s op') : level = level' := by
  cases h <;> cases h' <;> rfl

/-- The operands of casts and of operators with two operands. -/
inductive IsOperand : List Token → Prop where
  | negate {ts} (h : IsOperand ts) : IsOperand (.sign .minus :: ts)
  | deref {ts} (h : IsOperand ts) : IsOperand (.sign .star :: ts)
  | addressOf (x : String) : IsOperand [.sign .ampersand, .name x]
  | stepBefore {s op} (x : String) (hop : IsStep s op) : IsOperand [.sign s, .name x]
  | stepAfter {s op} (x : String) (hop : IsStep s op) : IsOperand [.name x, .sign s]
  | call {ts args} (f : String) (h : Listed (IsExpr .or) ts args) : IsOperand (.name f :: parens ts)
  | int (n : Int) : IsOperand [.int n]
  | str (raw : String) : IsOperand [.str raw]
  | var (x : String) : IsOperand [.name x]
  | parens {ts e} (h : IsExpr .or ts e) : IsOperand (parens ts)

/-- What can stand after an operand in an expression: casts, and operators with an operand each. -/
inductive Continues : List Token → Prop where
  | nil : Continues []
  | operator {level s op us vs} (hop : IsOperator level s op) (h : IsOperand us)
      (hs : Continues vs) : Continues (.sign s :: (us ++ vs))
  | cast {us vs target} (h : IsType us target) (hs : Continues vs) :
      Continues (.keyword .as_ :: (us ++ vs))

theorem IsExpr.isOperand {level : Precedence} {ts : List Token} {e : Expr} :
    IsExpr level ts e → level = .unary ∨ level = .postfixed ∨ level = .primary → IsOperand ts
  | .tighter h, hl => by
    refine h.isOperand ?_
    rcases hl with rfl | rfl | rfl <;> simp [Precedence.tighter]
  | .binary hop _ _, hl => by
    rcases hl with rfl | rfl | rfl <;> cases hop
  | .cast _ _, hl => by
    rcases hl with h | h | h <;> cases h
  | .negate h, hl => .negate (h.isOperand hl)
  | .deref h, hl => .deref (h.isOperand hl)
  | .addressOf x, _ => .addressOf x
  | .stepBefore x hop, _ => .stepBefore x hop
  | .stepAfter x hop, _ => .stepAfter x hop
  | .call f h, _ => .call f h
  | .int n, _ => .int n
  | .str raw, _ => .str raw
  | .var x, _ => .var x
  | .parens h, _ => .parens h

/-- **An expression is an operand and what continues it.** The levels play no role. -/
theorem IsExpr.continues {level : Precedence} {ts vs : List Token} {e : Expr} :
    IsExpr level ts e → Continues vs → ∃ us ws, ts ++ vs = us ++ ws ∧ IsOperand us ∧ Continues ws
  | .tighter h, hv => h.continues hv
  | .binary hop hl hr, hv => by
    obtain ⟨us, ws, hsplit, hus, hws⟩ := hr.continues hv
    rw [List.append_assoc, List.cons_append, hsplit]
    exact hl.continues (.operator hop hus hws)
  | .cast he ht, hv => by
    rw [List.append_assoc, List.cons_append]
    exact he.continues (.cast ht hv)
  | .negate h, hv => ⟨_, _, rfl, .negate (h.isOperand (.inl rfl)), hv⟩
  | .deref h, hv => ⟨_, _, rfl, .deref (h.isOperand (.inl rfl)), hv⟩
  | .addressOf x, hv => ⟨_, _, rfl, .addressOf x, hv⟩
  | .stepBefore x hop, hv => ⟨_, _, rfl, .stepBefore x hop, hv⟩
  | .stepAfter x hop, hv => ⟨_, _, rfl, .stepAfter x hop, hv⟩
  | .call f h, hv => ⟨_, _, rfl, .call f h, hv⟩
  | .int n, hv => ⟨_, _, rfl, .int n, hv⟩
  | .str raw, hv => ⟨_, _, rfl, .str raw, hv⟩
  | .var x, hv => ⟨_, _, rfl, .var x, hv⟩
  | .parens h, hv => ⟨_, _, rfl, .parens h, hv⟩

section

variable {ts us vs tail : List Token} {e : Expr}

theorem IsExpr.exists_operand (h : IsExpr .or ts e) :
    ∃ us vs, ts = us ++ vs ∧ IsOperand us ∧ Continues vs := by
  obtain ⟨us, vs, hsplit, hus, hvs⟩ := h.continues .nil
  exact ⟨us, vs, by rw [← hsplit, List.append_nil], hus, hvs⟩

/-- The tokens before which an expression ends. -/
def EndsExpr (t : Token) : Prop :=
  t = .sign .closeParen ∨ t = .sign .comma ∨ t = .sign .semicolon

theorem IsExpr.exists_cons (h : IsExpr .or ts e) : ∃ u us, ts = u :: us ∧ ¬ EndsExpr u := by
  obtain ⟨us, vs, rfl, hus, -⟩ := h.exists_operand
  cases hus with
  | stepBefore x hop => exact ⟨_, _, rfl, by cases hop <;> simp [EndsExpr]⟩
  | _ => exact ⟨_, _, rfl, by simp [EndsExpr]⟩

/-! ### Suffixes that look like operators -/

/-- No suffix of a type comes next. -/
def NoSuffix (ts : List Token) : Prop :=
  ∀ t ∈ ts.head?, t ≠ .sign .star ∧ t ≠ .sign .openParen

/-- If no operand begins after all suffixes, then `vs` is suffixes and what continues an operand. -/
def Absorbs (tail vs : List Token) : Prop :=
  ¬ (afterSuffixes (vs ++ tail)).head?.any Token.beginsOperand →
    ∃ us ws suffixes, vs = us ++ ws ∧ Many IsSuffix us suffixes ∧ Continues ws ∧
      NoSuffix (ws ++ tail)

theorem Absorbs.suffix {suffix : String} (hs : IsSuffix us suffix) (h : Absorbs tail vs) :
    Absorbs tail (us ++ vs) := by
  have hone : Many IsSuffix us [suffix] := by
    simpa using Many.cons hs .nil
  intro hend
  rw [List.append_assoc, afterSuffixes_append hone] at hend
  obtain ⟨us', ws, suffixes, rfl, hmany, hws, hno⟩ := h hend
  exact ⟨us ++ us', ws, suffix :: suffixes, by rw [List.append_assoc], .cons hs hmany, hws, hno⟩

theorem Absorbs.star (h : Absorbs tail vs) : Absorbs tail (.sign .star :: vs) := by
  have hstar := h.suffix IsSuffix.pointer
  exact hstar

/-- A number in parentheses is read as a suffix, any other expression is not. -/
theorem Absorbs.parens (h : IsExpr .or ts e) (hvs : Absorbs tail vs) :
    Absorbs tail (Grammar.parens ts ++ vs) := by
  obtain ⟨us, ws, rfl, hus, hws⟩ := h.exists_operand
  by_cases hn : ∃ n, us ++ ws = [.int n]
  · obtain ⟨n, hn⟩ := hn
    rw [hn]
    exact hvs.suffix (.array n)
  · refine fun hend => absurd ?_ hend
    -- The parenthesis is not the first token of a suffix.
    cases hus with
    | int n =>
      cases hws with
      | nil => exact absurd ⟨n, rfl⟩ hn
      | operator hop _ _ => cases hop <;> rfl
      | cast _ _ => rfl
    | stepBefore x hop => cases hop <;> rfl
    | _ => rfl

theorem IsOperand.absorbs (h : IsOperand us) (hc : Continues vs) (hvs : Absorbs tail vs) :
    Absorbs tail (us ++ vs) := by
  induction h with
  | negate h =>
    refine fun _ => ⟨[], _, [], rfl, .nil, .operator .subtract h hc, ?_⟩
    rintro t ⟨⟩
    exact ⟨by simp, by simp⟩
  | deref _ ih => exact ih.star
  | parens h => exact hvs.parens h
  | stepBefore x hop => exact fun hend => absurd (by cases hop <;> rfl) hend
  | _ => exact fun hend => absurd rfl hend

theorem Continues.absorbs (hno : NoSuffix tail) (h : Continues vs) : Absorbs tail vs := by
  induction h with
  | nil => exact fun _ => ⟨[], [], [], rfl, .nil, .nil, hno⟩
  | @operator level s op us vs hop h hs ih =>
    by_cases hstar : s = .star
    · subst hstar
      exact (h.absorbs hs ih).star
    · refine fun _ => ⟨[], _, [], rfl, .nil, .operator hop h hs, ?_⟩
      rintro t ⟨⟩
      cases hop <;> simp at hstar ⊢
  | cast h hs _ =>
    refine fun _ => ⟨[], _, [], rfl, .nil, .cast h hs, ?_⟩
    rintro t ⟨⟩
    exact ⟨by simp, by simp⟩

/-! ### What follows operands and expressions -/

/-- The tokens that can follow a name which is an operand. -/
def FollowsName (t : Token) : Prop :=
  StepOp.ofToken? t = none ∧ t ≠ .sign .openParen

theorem EndsExpr.noSuffix {t : Token} (h : EndsExpr t) : NoSuffix (t :: tail) := by
  rintro u ⟨⟩
  rcases h with rfl | rfl | rfl <;> exact ⟨by simp, by simp⟩

theorem EndsExpr.followsName {t : Token} (h : EndsExpr t) : FollowsName t := by
  rcases h with rfl | rfl | rfl <;> exact ⟨rfl, by simp⟩

theorem EndsExpr.operator? {t : Token} (h : EndsExpr t) :
    ∀ operator? ∈ Expr.levels, operator? t = none := by
  rcases h with rfl | rfl | rfl <;> simp [Expr.levels, BinOp.disjunction?, BinOp.conjunction?,
    BinOp.equality?, BinOp.comparison?, BinOp.sum?, BinOp.product?]

theorem Continues.followsName {t : Token} (h : Continues vs) (ht : EndsExpr t) (tail : List Token) :
    ∃ u us, vs ++ t :: tail = u :: us ∧ FollowsName u := by
  cases h with
  | nil => exact ⟨_, _, rfl, ht.followsName⟩
  | operator hop _ _ => exact ⟨_, _, rfl, by cases hop <;> exact ⟨rfl, by simp⟩⟩
  | cast _ _ => exact ⟨_, _, rfl, rfl, by simp⟩

theorem Many.append {α : Type} {R : List Token → α → Prop} {as bs : List α} (h : Many R us as)
    (hs : Many R vs bs) : Many R (us ++ vs) (as ++ bs) := by
  induction h with
  | nil => exact hs
  | cons ha _ ih =>
    rw [List.append_assoc]
    exact .cons ha ih

end

end Grammar

open GLang.Parser

theorem Cursor.atTypeSuffix_of_noSuffix {c : Cursor} {ts : List Token} (h : NoSuffix ts)
    (hts : c.tokens = ts) : c.atTypeSuffix = false := by
  obtain ⟨hstar, hopen⟩ := h c.current (by rw [← hts]; rfl)
  unfold atTypeSuffix
  split
  · exact absurd ‹_› hstar
  · exact absurd ‹_› hopen
  · rfl

namespace Expr

variable {ts us vs rest : List Token} {t : Token}

/-! ### Operands with operators between them -/

/-- Operands that `operand` reads, with operators of the levels `operators` between them. -/
inductive Chain (operators : List (Token → Option BinOp)) (operand : Parser Expr)
    (rest : List Token) : List Token → Prop where
  | last {ts e} (h : Takes operand ts rest e) : Chain operators operand rest ts
  | next {ts us s e} (h : Takes operand ts (.sign s :: (us ++ rest)) e)
      (hs : ∃ operator? ∈ operators, (operator? (.sign s)).isSome)
      (hus : Chain operators operand rest us) : Chain operators operand rest (ts ++ .sign s :: us)

/-- An operator of one level and the operand after it. -/
def operation (operator? : Token → Option BinOp) (operand : Parser Expr) :
    Parser (BinOp × Expr) := do
  match operator? (← current) with
  | some op =>
    advance
    let right ← operand
    return (op, right)
  | none => fail (.expectedExpression (← current))

section

variable {operators : List (Token → Option BinOp)} {operator? : Token → Option BinOp}
  {operand : Parser Expr}

/-- The first operand of the level of `operator?` in a chain, read up to an operator of a looser
level. -/
structure Segment (operators : List (Token → Option BinOp)) (operator? : Token → Option BinOp)
    (operand : Parser Expr) (rest us vs ws : List Token) : Prop where
  first : ∃ e, Takes operand us (vs ++ (ws ++ rest)) e
  loop : ∃ rounds, ∀ bound : List Spanned, vs.length < bound.length →
    Takes (manyWithin (fun c => (operator? c.current).isSome) (operation operator? operand) bound)
      vs (ws ++ rest) rounds
  after : ws = [] ∨ ∃ s ws', ws = .sign s :: ws' ∧
    (∃ operator? ∈ operators, (operator? (.sign s)).isSome) ∧
    Chain operators (leftAssoc operator? operand) rest ws'

theorem Segment.chain {ws : List Token}
    (h : Segment operators operator? operand rest us vs ws) :
    Chain operators (leftAssoc operator? operand) rest (us ++ (vs ++ ws)) := by
  obtain ⟨⟨e, hfirst⟩, ⟨rounds, hloop⟩, hafter⟩ := h
  have htakes : Takes (leftAssoc operator? operand) (us ++ vs) (ws ++ rest) _ :=
    takes_bind hfirst (takes_map _ (takes_many hloop))
  rw [← List.append_assoc]
  rcases hafter with rfl | ⟨s, ws, rfl, hs, hws⟩
  · rw [List.append_nil]
    exact .last htakes
  · exact .next htakes hs hws

theorem Chain.segment (ht : operator? t = none)
    (hdisjoint : ∀ looser ∈ operators, ∀ s, (looser (.sign s)).isSome → operator? (.sign s) = none)
    (h : Chain (operators ++ [operator?]) operand (t :: rest) ts) :
    ∃ us vs ws, ts = us ++ (vs ++ ws) ∧
      Segment operators operator? operand (t :: rest) us vs ws := by
  have hstop : ∀ u tail, operator? u = none → ∀ bound : List Spanned, 0 < bound.length →
      Takes (manyWithin (fun c => (operator? c.current).isSome) (operation operator? operand) bound)
        [] (u :: tail) [] := by
    intro u tail hu bound hb
    refine takes_manyWithin_nil (fun c hts => ?_) hb
    rw [Cursor.current_of_tokens hts, hu]
    rfl
  induction h with
  | @last ts e h =>
    refine ⟨ts, [], [], by simp, ⟨e, h⟩, ⟨[], ?_⟩, .inl rfl⟩
    exact hstop t rest ht
  | @next ts us s e h hs _ ih =>
    obtain ⟨us₁, vs, ws, rfl, hseg⟩ := ih
    obtain ⟨looser, hmem, hs⟩ := hs
    rcases List.mem_append.1 hmem with hmem | hmem
    · refine ⟨ts, [], .sign s :: (us₁ ++ (vs ++ ws)), by simp, ⟨e, h⟩, ⟨[], ?_⟩,
        .inr ⟨s, _, rfl, ⟨looser, hmem, hs⟩, hseg.chain⟩⟩
      exact hstop _ _ (hdisjoint looser hmem s hs)
    · obtain rfl := List.mem_singleton.1 hmem
      obtain ⟨⟨e₁, hfirst⟩, ⟨rounds, hloop⟩, hafter⟩ := hseg
      obtain ⟨op, hop⟩ := Option.isSome_iff_exists.1 hs
      refine ⟨ts, .sign s :: (us₁ ++ vs), ws, by simp, ⟨e, by simpa using h⟩,
        ⟨(op, e₁) :: rounds, fun bound hb => ?_⟩, hafter⟩
      obtain ⟨_, bound, rfl⟩ := List.exists_cons_of_length_pos (Nat.zero_lt_of_lt hb)
      simp only [List.length_cons, List.length_append] at hb
      have hround : Takes (operation looser operand) (.sign s :: us₁) (vs ++ (ws ++ t :: rest))
          (op, e₁) := by
        refine takes_current rfl ?_
        rw [hop]
        exact takes_advance (by simp) (takes_map _ hfirst)
      refine takes_manyWithin_cons (fun c _ hts => ?_) hround (hloop bound (by omega))
      rw [Cursor.current_of_tokens hts, hop]
      rfl

theorem Chain.foldr {levels : List (Token → Option BinOp)}
    (hdisjoint : (operators ++ levels).Pairwise
      fun looser tighter => ∀ s, (looser (.sign s)).isSome → tighter (.sign s) = none)
    (ht : ∀ operator? ∈ levels, operator? t = none)
    (h : Chain (operators ++ levels) operand (t :: rest) ts) :
    Chain operators (levels.foldr leftAssoc operand) (t :: rest) ts := by
  induction levels generalizing operators with
  | nil => simpa using h
  | cons operator? levels ih =>
    obtain ⟨hhere, ht⟩ := List.forall_mem_cons.1 ht
    rw [List.append_cons] at h hdisjoint
    obtain ⟨us, vs, ws, rfl, hseg⟩ := (ih hdisjoint ht h).segment hhere fun looser hmem s =>
      (List.pairwise_append.1 (List.pairwise_append.1 hdisjoint).1).2.2 looser hmem operator?
        (List.mem_singleton_self _) s
    exact hseg.chain

theorem Chain.takes (h : Chain [] operand rest ts) : ∃ e, Takes operand ts rest e := by
  cases h with
  | last h => exact ⟨_, h⟩
  | next _ hs _ =>
    obtain ⟨_, hmem, -⟩ := hs
    cases hmem

end

theorem pairwise_levels : levels.Pairwise
    fun looser tighter => ∀ s, (looser (.sign s)).isSome → tighter (.sign s) = none := by
  have hlevels : levels = [Precedence.or, .and, .equality, .relational, .additive,
      .multiplicative].map Precedence.operator? := rfl
  rw [hlevels, List.pairwise_map]
  refine List.Pairwise.imp ?_ (show List.Pairwise (· ≠ ·) _ by decide)
  intro looser tighter hne s hs
  obtain ⟨op, hop⟩ := Option.isSome_iff_exists.1 hs
  obtain ⟨_, ⟨⟩, hop⟩ := Precedence.isOperator_of_operator? hop
  rw [Option.eq_none_iff_forall_ne_some]
  intro op' hop'
  obtain ⟨_, ⟨⟩, hop'⟩ := Precedence.isOperator_of_operator? hop'
  exact hne (hop.level_unique hop')

/-! ### Expressions whose casts end -/

/-- What stands after the casts that follow an operand. -/
def AfterCasts (ws : List Token) : Prop :=
  ws = [] ∨ ∃ level s op us vs, ws = .sign s :: (us ++ vs) ∧ IsOperator level s op ∧
    IsOperand us ∧ Continues vs

/-- The targets of the casts that follow an operand. -/
def castTargets : List Spanned → Parser (List String) :=
  manyWithin (·.current = .keyword .as_) (do advance; typeDescriptor)

theorem takes_castTargets_nil (ht : t ≠ .keyword .as_) {bound : List Spanned}
    (hb : 0 < bound.length) : Takes (castTargets bound) [] (t :: rest) [] := by
  refine takes_manyWithin_nil (fun c hts => ?_) hb
  rw [Cursor.current_of_tokens hts]
  exact decide_eq_false ht

theorem takes_castTargets_cons {target : String} {targets : List String} (hus : IsType us target)
    (hno : NoSuffix (vs ++ rest))
    (h : ∀ bound : List Spanned, vs.length < bound.length →
      Takes (castTargets bound) vs rest targets)
    {bound : List Spanned} (hb : (.keyword .as_ :: us ++ vs).length < bound.length) :
    Takes (castTargets bound) (.keyword .as_ :: us ++ vs) rest (target :: targets) := by
  obtain ⟨_, bound, rfl⟩ := List.exists_cons_of_length_pos (Nat.zero_lt_of_lt hb)
  simp only [List.length_cons, List.length_append] at hb
  refine takes_manyWithin_cons (fun c _ hts => ?_) (takes_advance (by simp)
    (takes_typeDescriptor hus fun c => Cursor.atTypeSuffix_of_noSuffix hno)) (h bound (by omega))
  rw [Cursor.current_of_tokens hts]
  rfl

/-- Each target takes the suffixes that follow it. What is left continues the operand still, though
not as the grammar has it. -/
theorem takes_casts (ht : EndsExpr t) (h : Continues vs) (hend : castsEnd (vs ++ t :: rest)) :
    ∃ us ws targets, vs = us ++ ws ∧ AfterCasts ws ∧ ∀ bound : List Spanned,
      us.length < bound.length → Takes (castTargets bound) us (ws ++ t :: rest) targets := by
  induction hn : vs.length using Nat.strong_induction_on generalizing vs with
  | _ n ih =>
    cases h with
    | nil =>
      refine ⟨[], [], [], rfl, .inl rfl, fun bound => takes_castTargets_nil ?_⟩
      rcases ht with rfl | rfl | rfl <;> simp
    | operator hop h hs =>
      exact ⟨[], _, [], rfl, .inr ⟨_, _, _, _, _, rfl, hop, h, hs⟩,
        fun bound => takes_castTargets_nil (t := .sign _) (by simp)⟩
    | cast h hs =>
      obtain ⟨x, hus⟩ := h
      rename_i us suffixes
      rw [List.cons_append, castsEnd, Bool.and_eq_true] at hend
      obtain ⟨hhere, hend⟩ := hend
      rw [List.cons_append, List.cons_append, castEnds, List.append_assoc, afterSuffixes_append hus]
        at hhere
      obtain ⟨us', ws', suffixes', rfl, hus', hws', hno⟩ :=
        hs.absorbs ht.noSuffix (by simpa using hhere)
      have hlater : castsEnd (ws' ++ t :: rest) :=
        castsEnd_of_append (.name x :: us ++ us') (by simpa using hend)
      obtain ⟨us₂, ws, targets, rfl, hafter, htakes⟩ :=
        ih _ (by rw [← hn]; simp; omega) hws' hlater rfl
      have htype : IsType (.name x :: (us ++ us')) _ := .mk x (hus.append hus')
      rw [List.append_assoc] at hno
      exact ⟨_, ws, _, by simp, hafter, fun bound => takes_castTargets_cons htype hno htakes⟩

/-- `unary` reads the operands that are shorter than `n`. -/
def TakesOperands (unary : Parser Expr) (n : Nat) : Prop :=
  ∀ us u tail, IsOperand us → us.length < n → FollowsName u → castsEnd (us ++ u :: tail) →
    ∃ e, Takes unary us (u :: tail) e

section

variable {unary : Parser Expr} {n : Nat} {e : Expr}

theorem TakesOperands.chain (hunary : TakesOperands unary n) (ht : EndsExpr t) (hus : IsOperand us)
    (hvs : Continues vs) (hn : (us ++ vs).length < n) (hend : castsEnd (us ++ vs ++ t :: rest)) :
    Chain levels (castsOver unary) (t :: rest) (us ++ vs) := by
  induction hm : (us ++ vs).length using Nat.strong_induction_on generalizing us vs with
  | _ m ih =>
    rw [List.append_assoc] at hend
    obtain ⟨u, tail, hfollow, hu⟩ := hvs.followsName ht rest
    obtain ⟨e, he⟩ := hunary us u tail hus (by simp at hn; omega) hu (by rwa [← hfollow])
    rw [← hfollow] at he
    obtain ⟨vs, ws, targets, rfl, hafter, hcasts⟩ := takes_casts ht hvs (castsEnd_of_append _ hend)
    rw [List.append_assoc] at he hend
    have htakes : Takes (castsOver unary) (us ++ vs) (ws ++ t :: rest) _ :=
      takes_bind he (takes_map _ (takes_many hcasts))
    rw [← List.append_assoc]
    rcases hafter with rfl | ⟨level, s, op, us', vs', rfl, hop, hus', hvs'⟩
    · rw [List.append_nil]
      exact .last htakes
    · obtain ⟨looser, operator?, tighter, hlevels, hs, -⟩ := exists_levels_of_isOperator hop
      simp only [List.length_append, List.length_cons] at hm hn
      refine .next htakes ⟨operator?, by simp [hlevels], by simp [hs]⟩ ?_
      exact ih _ (by simp; omega) hus' hvs' (by simp; omega)
        (castsEnd_of_append (us ++ (vs ++ [.sign s])) (by simpa using hend)) rfl

/-- `expression` reads the expressions that are shorter than `n`, if their casts end. -/
def TakesExpressions (expression : Parser Expr) (n : Nat) : Prop :=
  ∀ ts e t rest, IsExpr .or ts e → ts.length < n → EndsExpr t → castsEnd (ts ++ t :: rest) →
    ∃ e', Takes expression ts (t :: rest) e'

theorem TakesOperands.expressions (hunary : TakesOperands unary n) :
    TakesExpressions (levelsOver unary) n := by
  intro ts e t rest h hn ht hend
  obtain ⟨us, vs, rfl, hus, hvs⟩ := h.exists_operand
  have hchain : Chain ([] ++ levels) (castsOver unary) (t :: rest) (us ++ vs) :=
    hunary.chain ht hus hvs hn hend
  exact (hchain.foldr (by simpa using pairwise_levels) ht.operator?).takes

variable {expression : Parser Expr} {args : List Expr}

theorem TakesExpressions.separated (hitem : TakesExpressions expression n)
    (h : Separated (IsExpr .or) ts args) (hn : ts.length < n)
    (hend : castsEnd (ts ++ .sign .closeParen :: rest)) :
    ∃ args', TakesSeparated expression (.sign .closeParen :: rest) ts args' := by
  induction h with
  | one h =>
    obtain ⟨e, he⟩ := hitem _ _ _ _ h hn (.inl rfl) hend
    exact ⟨[e], .one he⟩
  | @cons ts us a as h _ ih =>
    simp only [List.length_append, List.length_cons] at hn
    rw [List.append_assoc] at hend
    obtain ⟨e, he⟩ := hitem _ _ _ _ h (by omega) (.inr (.inl rfl)) hend
    obtain ⟨es, hes⟩ := ih (by omega)
      (castsEnd_of_append (ts ++ [.sign .comma]) (by simpa using hend))
    exact ⟨e :: es, .cons he hes⟩

theorem TakesExpressions.arguments (hitem : TakesExpressions expression n)
    (h : Listed (IsExpr .or) ts args) (hn : ts.length < n) (hend : castsEnd (parens ts ++ rest)) :
    ∃ args', Takes (argumentsOver expression) (parens ts) rest args' := by
  cases h with
  | nil => exact ⟨[], takes_listed_nil⟩
  | some h =>
    have hinner : castsEnd (ts ++ .sign .closeParen :: rest) :=
      castsEnd_of_append [.sign .openParen] (by simpa [parens] using hend)
    obtain ⟨args', hargs'⟩ := hitem.separated h hn hinner
    have hfirst := exists_cons_of_separated (fun us e he => by
      obtain ⟨u, us, rfl, hu⟩ := he.exists_cons
      exact ⟨u, us, rfl, fun hclose => hu (.inl hclose)⟩) h
    exact ⟨args', takes_listed_some hfirst hargs'⟩

end

theorem takesOperands_unary (bound : List Spanned) : TakesOperands (unary bound) bound.length := by
  induction bound with
  | nil =>
    intro us u tail _ hn
    cases hn
  | cons s bound ih =>
    intro us u tail hus hn hu hend
    cases hus with
    | negate h =>
      obtain ⟨e, he⟩ := ih _ u tail h (by simpa using hn) hu (castsEnd_of_append [_] hend)
      exact ⟨_, takes_negate he⟩
    | deref h =>
      obtain ⟨e, he⟩ := ih _ u tail h (by simpa using hn) hu (castsEnd_of_append [_] hend)
      exact ⟨_, takes_deref he⟩
    | addressOf x => exact ⟨_, takes_addressOf⟩
    | stepBefore x hop => exact ⟨_, takes_stepBefore hop⟩
    | stepAfter x hop => exact ⟨_, takes_stepAfter hop⟩
    | call f h =>
      obtain ⟨args, hargs⟩ := ih.expressions.arguments h (by simp at hn; omega)
        (castsEnd_of_append [_] hend)
      exact ⟨_, takes_call_of_arguments hargs⟩
    | int n => exact ⟨_, takes_int⟩
    | str raw => exact ⟨_, takes_str⟩
    | var x => exact ⟨_, takes_var hu.1 hu.2⟩
    | parens h =>
      obtain ⟨e, he⟩ := ih.expressions _ _ _ _ h (by simp at hn; omega) (.inl rfl)
        (castsEnd_of_append [_] (by simpa [parens] using hend))
      exact ⟨_, takes_parens he⟩

theorem unary_congr {bound bound' : List Spanned} (h : bound.length = bound'.length) :
    unary bound = unary bound' := by
  induction bound generalizing bound' with
  | nil =>
    obtain rfl := List.length_eq_zero_iff.1 h.symm
    rfl
  | cons s bound ih =>
    cases bound' with
    | nil => cases h
    | cons s' bound' => rw [unary, unary, ih (Nat.succ.inj h)]

theorem exists_takes_get {α : Type} {p : List Spanned → Parser α}
    (hcongr : ∀ bound bound', bound.length = bound'.length → p bound = p bound')
    (h : ∀ bound, bound.length = (ts ++ rest).length + 1 → ∃ a, Takes (p bound) ts rest a) :
    ∃ a, Takes (do p (← get).bound) ts rest a := by
  obtain ⟨bound, hb⟩ : ∃ bound : List Spanned, bound.length = (ts ++ rest).length + 1 :=
    ⟨List.replicate _ default, List.length_replicate⟩
  obtain ⟨a, ha⟩ := h bound hb
  refine ⟨a, takes_get fun c hts => ?_⟩
  rw [hcongr c.bound bound (by rw [Cursor.length_bound, hts, hb])]
  exact ha

theorem takes_unaryParser (ht : FollowsName t) (h : IsOperand ts)
    (hend : castsEnd (ts ++ t :: rest)) :
    ∃ e, Takes unaryParser ts (t :: rest) e :=
  exists_takes_get (fun _ _ => unary_congr) fun bound hb =>
    takesOperands_unary bound ts t rest h (by simp at hb; omega) ht hend

/-- **An expression is read to its end if its casts end.** -/
theorem takes_expression {e : Expr} (ht : EndsExpr t) (h : IsExpr .or ts e)
    (hend : castsEnd (ts ++ t :: rest)) : ∃ e', Takes parser ts (t :: rest) e' :=
  exists_takes_get (p := fun bound => levelsOver (unary bound))
    (fun _ _ hb => by rw [unary_congr hb]) fun bound hb =>
      (takesOperands_unary bound).expressions ts e t rest h (by simp at hb; omega) ht hend

theorem takes_arguments {args : List Expr} (h : Listed (IsExpr .or) ts args)
    (hend : castsEnd (parens ts ++ rest)) :
    ∃ args', Takes argumentsParser (parens ts) rest args' := by
  have hitem : TakesExpressions parser (ts.length + 1) :=
    fun _ _ _ _ h _ ht hend => takes_expression ht h hend
  exact hitem.arguments h (Nat.lt_succ_self _) hend

end Expr

end GLang
