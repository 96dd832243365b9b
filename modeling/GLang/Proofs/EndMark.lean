import GLang.Proofs.Derivation

/-!
# Nothing is read after the first end mark

A list of tokens may go on after an end mark. The runs of a parser from the list as it is, and from
the list cut off after its first end mark, are compared step by step: they fail with the same error,
or yield the same value and stop at the same token. The bounds of the loops differ, as they count
tokens, so that it is part of the comparison that no bound is ever met.

* `Cursor.extend`: the list of a cursor, with more tokens after it.
* `Parser.Confined`: the comparison of two runs, with one rule for each step of a parser.
* `Parser.AgreeUpTo`: two parsers compare well as long as not too many tokens are left. There is one
  lemma for each parser of the grammar, and bounds that exceed the tokens left do not matter.
* `Program.ofTokens_up_to_mark`: a program is read from what stands before the first end mark.
-/

namespace GLang

namespace Cursor

variable {c : Cursor} {rest : List Spanned}

/-- The tokens from the current one on, with their places. -/
def spans (c : Cursor) : List Spanned :=
  c.head :: c.tail

/-- The same cursor, with more tokens at the end of its list. -/
def extend (c : Cursor) (rest : List Spanned) : Cursor :=
  { c with tail := c.tail ++ rest }

theorem extend_current : (c.extend rest).current = c.current := rfl

theorem extend_atEnd : (c.extend rest).atEnd = c.atEnd := rfl

theorem length_spans_pos : 0 < c.spans.length := Nat.succ_pos _

theorem length_spans_le_bound : c.spans.length ≤ c.bound.length := by
  simp [spans, bound]

theorem length_spans_le_bound_extend : c.spans.length ≤ (c.extend rest).bound.length := by
  simp only [spans, bound, extend, List.length_cons, List.length_append]
  omega

theorem advance_of_eof (h : c.current = .eof) : c.advance = c := by
  simp [advance, atEnd, h]

/-- Before the end mark there is a next token, and the cursor moves to it. -/
theorem Ended.exists_next (h : c.Ended) (hne : c.current ≠ .eof) (rest : List Spanned) :
    ∃ t ts, c.tail = t :: ts ∧ c.advance = ⟨t, ts, false⟩ ∧
      (c.extend rest).advance = c.advance.extend rest := by
  have hend : c.atEnd = false := by
    simp [atEnd, h.notPast, hne]
  cases htail : c.tail with
  | nil =>
    have hlength := congrArg List.length (h.advance hne).2.1
    simp [tokens, htail] at hlength
  | cons t ts =>
    have hadvance : c.advance = ⟨t, ts, false⟩ := by
      rw [Cursor.advance, hend, htail]
      rfl
    refine ⟨t, ts, rfl, hadvance, ?_⟩
    rw [hadvance, Cursor.advance, extend_atEnd, hend, extend, htail]
    rfl

theorem Ended.extend_peek (h : c.Ended) (hne : c.current ≠ .eof) :
    (c.extend rest).peek = c.peek := by
  obtain ⟨t, ts, htail, -⟩ := h.exists_next hne rest
  simp [peek, extend, htail]

end Cursor

namespace Parser

/-- The run of `p` from `c` and the run of `q` from `c` with the tokens `rest` after it go the same
way. Both fail at the same token with the same fault, or both stop at the same token with the same
value; if `S` holds they have moved. -/
def Confined {α : Type} (rest : List Spanned) (S : Prop) (c : Cursor) (p q : Parser α) : Prop :=
  c.Ended →
    (∃ a c', p.run c = .ok (a, c') ∧ q.run (c.extend rest) = .ok (a, c'.extend rest) ∧
      c'.Ended ∧ c'.spans <:+ c.spans ∧ (S → c'.spans.length < c.spans.length)) ∨
    ∃ fault, ∃ t ∈ c.spans, fault ≠ .endless ∧
      p.run c = .error ⟨.grammar fault, t.location⟩ ∧
      q.run (c.extend rest) = .error ⟨.grammar fault, t.location⟩

/-- The parsers `p` and `q` read one token or more, and agree if at most `n` tokens are left. -/
def AgreeUpTo {α : Type} (rest : List Spanned) (n : Nat) (p q : Parser α) : Prop :=
  ∀ (S : Prop) (c : Cursor), c.spans.length ≤ n → Confined rest S c p q

variable {α β : Type} {rest : List Spanned} {S : Prop} {c : Cursor} {n : Nat}

/-! ### Rules -/

theorem confined_pure (a : α) : Confined rest False c (pure a) (pure a) := fun hc =>
  .inl ⟨a, c, rfl, rfl, hc, List.suffix_rfl, False.elim⟩

theorem confined_fail {fault : GrammarFault} (h : fault ≠ .endless) :
    Confined (α := α) rest S c (fail fault) (fail fault) := fun _ =>
  .inr ⟨fault, c.head, List.mem_cons_self, h, rfl, rfl⟩

/-- Both parts read on from where they start, and one of them moves if the whole has to. -/
theorem Confined.seq {S₁ S₂ : Prop} {p q : Parser α} {f g : α → Parser β} (hS : S → S₁ ∨ S₂)
    (h : Confined rest S₁ c p q)
    (hf : ∀ a c', c'.spans.length ≤ c.spans.length → (S₁ → c'.spans.length < c.spans.length) →
      Confined rest S₂ c' (f a) (g a)) :
    Confined rest S c (p >>= f) (q >>= g) := by
  intro hc
  rcases h hc with ⟨a, c₁, hp, hq, hc₁, hsuffix, hlt⟩ | ⟨fault, t, ht, hne, hp, hq⟩
  · have hle := hsuffix.length_le
    simp only [StateT.run_bind, hp, hq]
    rcases hf a c₁ hle hlt hc₁ with
      ⟨b, c₂, hp₂, hq₂, hc₂, hsuffix₂, hlt₂⟩ | ⟨fault, t, ht, hne, hp₂, hq₂⟩
    · have hle₂ := hsuffix₂.length_le
      refine .inl ⟨b, c₂, hp₂, hq₂, hc₂, hsuffix₂.trans hsuffix, fun h => ?_⟩
      rcases hS h with h₁ | h₂
      · exact Nat.lt_of_le_of_lt hle₂ (hlt h₁)
      · exact Nat.lt_of_lt_of_le (hlt₂ h₂) hle
    · exact .inr ⟨fault, t, hsuffix.subset ht, hne, hp₂, hq₂⟩
  · simp only [StateT.run_bind, hp, hq]
    exact .inr ⟨fault, t, ht, hne, rfl, rfl⟩

/-- The first part moves, so that the second starts with fewer tokens left. -/
theorem Confined.bind {p q : Parser α} {f g : α → Parser β} (h : Confined rest True c p q)
    (hf : ∀ a c', c'.spans.length < c.spans.length → Confined rest False c' (f a) (g a)) :
    Confined rest S c (p >>= f) (q >>= g) :=
  h.seq (fun _ => .inl trivial) fun a c' _ hlt => hf a c' (hlt trivial)

/-- The first part may stay where it is. -/
theorem Confined.andThen {p q : Parser α} {f g : α → Parser β} (h : Confined rest False c p q)
    (hf : ∀ a c', c'.spans.length ≤ c.spans.length → Confined rest S c' (f a) (g a)) :
    Confined rest S c (p >>= f) (q >>= g) :=
  h.seq .inr fun a c' hle _ => hf a c' hle

theorem confined_current {f g : Token → Parser β}
    (h : Confined rest S c (f c.current) (g c.current)) :
    Confined rest S c (current >>= f) (current >>= g) := h

theorem confined_sees {t : Token} {f g : Bool → Parser β}
    (h : Confined rest S c (f (c.current = t)) (g (c.current = t))) :
    Confined rest S c (sees t >>= f) (sees t >>= g) := h

theorem confined_get {f g : Cursor → Parser β}
    (h : c.Ended → Confined rest S c (f c) (g (c.extend rest))) :
    Confined rest S c (get >>= f) (get >>= g) := fun hc => h hc hc

theorem confined_advance {f g : Unit → Parser β} (hne : c.current ≠ .eof)
    (h : ∀ c', c'.spans.length < c.spans.length → Confined rest False c' (f ()) (g ())) :
    Confined rest S c (advance >>= f) (advance >>= g) := by
  refine Confined.bind (fun hc => ?_) fun _ => h
  obtain ⟨t, ts, htail, hadvance, hextend⟩ := hc.exists_next hne rest
  refine .inl ⟨(), c.advance, rfl, ?_, (hc.advance hne).1, ?_, fun _ => ?_⟩
  · rw [← hextend]
    rfl
  · simp [hadvance, Cursor.spans, htail]
  · simp [hadvance, Cursor.spans, htail]

/-- At the end mark the cursor stays where it is. -/
theorem confined_advance_any {f g : Unit → Parser β}
    (h : ∀ c', c'.spans.length ≤ c.spans.length → Confined rest False c' (f ()) (g ())) :
    Confined rest False c (advance >>= f) (advance >>= g) := by
  by_cases heof : c.current = .eof
  · have hend : Parser.advance.run c = .ok ((), c) :=
      congrArg (fun c' => Except.ok ((), c')) (Cursor.advance_of_eof heof)
    have hend' : Parser.advance.run (c.extend rest) = .ok ((), c.extend rest) :=
      congrArg (fun c' => Except.ok ((), c')) (Cursor.advance_of_eof (c := c.extend rest) heof)
    refine Confined.andThen (fun hc => ?_) fun _ => h
    exact .inl ⟨(), c, hend, hend', hc, List.suffix_rfl, False.elim⟩
  · exact confined_advance heof fun c' hlt => h c' hlt.le

theorem confined_expect {t : Token} {f g : Unit → Parser β} (ht : t ≠ .eof)
    (h : ∀ c', c'.spans.length < c.spans.length → Confined rest False c' (f ()) (g ())) :
    Confined rest S c (expect t >>= f) (expect t >>= g) := by
  refine Confined.bind (confined_current ?_) fun _ => h
  split
  · rename_i hcurrent
    exact confined_advance (hcurrent ▸ ht) fun c' _ => confined_pure ()
  · exact confined_fail (by simp)

theorem confined_sign {s : Sign} {f g : Unit → Parser β}
    (h : ∀ c', c'.spans.length < c.spans.length → Confined rest False c' (f ()) (g ())) :
    Confined rest S c (sign s >>= f) (sign s >>= g) :=
  confined_expect (by simp) h

theorem confined_keyword {k : Keyword} {f g : Unit → Parser β}
    (h : ∀ c', c'.spans.length < c.spans.length → Confined rest False c' (f ()) (g ())) :
    Confined rest S c (keyword k >>= f) (keyword k >>= g) :=
  confined_expect (by simp) h

theorem confined_ident {role : NameRole} : Confined rest S c (ident role) (ident role) := by
  refine confined_current ?_
  split
  · rename_i hcurrent
    exact confined_advance (by simp [hcurrent]) fun c' _ => confined_pure _
  · exact confined_fail (by simp)

theorem confined_manyWithin {more : Cursor → Bool} {item item' : Parser α}
    (hmore : ∀ c : Cursor, c.Ended → more (c.extend rest) = more c)
    (hitem : ∀ c : Cursor, c.spans.length ≤ n → more c → Confined rest True c item item') :
    ∀ (bound bound' : List Spanned) (c : Cursor), c.spans.length ≤ n →
      c.spans.length ≤ bound.length → c.spans.length ≤ bound'.length →
      Confined rest False c (manyWithin more item bound) (manyWithin more item' bound') := by
  -- Each item reads a token, so the tokens left fall below both bounds together.
  intro bound
  induction bound with
  | nil =>
    intro _ c _ h
    cases h
  | cons _ bound ih =>
    intro bound' c hn hbound hbound'
    cases bound' with
    | nil => cases hbound'
    | cons _ bound' =>
      rw [List.length_cons] at hbound hbound'
      simp only [manyWithin]
      refine confined_get fun hc => ?_
      rw [hmore c hc]
      split
      · rename_i h
        refine (hitem c hn h).bind fun a c₁ hlt => ?_
        exact (ih bound' c₁ (by omega) (by omega) (by omega)).andThen fun as _ _ => confined_pure _
      · exact confined_pure []

theorem confined_many {more : Cursor → Bool} {item item' : Parser α}
    (hmore : ∀ c : Cursor, c.Ended → more (c.extend rest) = more c)
    (hitem : ∀ c' : Cursor, c'.spans.length ≤ c.spans.length → more c' →
      Confined rest True c' item item') :
    Confined rest False c (many more item) (many more item') := by
  refine confined_get fun hc => ?_
  exact confined_manyWithin hmore hitem _ _ c le_rfl Cursor.length_spans_le_bound
    Cursor.length_spans_le_bound_extend

theorem AgreeUpTo.mono {m : Nat} {p q : Parser α} (h : AgreeUpTo rest n p q) (hm : m ≤ n) :
    AgreeUpTo rest m p q := fun S c hc => h S c (by omega)

/-- A recursion that goes one level deeper only after a token has been read never meets its
bound. -/
theorem agreeUpTo_of_bounded {p : List Spanned → Parser α}
    (hcons : ∀ t t' bound bound' S c, AgreeUpTo rest (c.spans.length - 1) (p bound) (p bound') →
      Confined rest S c (p (t :: bound)) (p (t' :: bound'))) :
    ∀ (bound bound' : List Spanned) (n : Nat), n ≤ bound.length → n ≤ bound'.length →
      AgreeUpTo rest n (p bound) (p bound') := by
  intro bound
  induction bound with
  | nil =>
    intro _ n h _ S c hc
    have hpos := c.length_spans_pos
    rw [List.length_nil] at h
    omega
  | cons t bound ih =>
    intro bound' n h h' S c hc
    cases bound' with
    | nil =>
      have hpos := c.length_spans_pos
      rw [List.length_nil] at h'
      omega
    | cons t' bound' =>
      rw [List.length_cons] at h h'
      exact hcons t t' bound bound' S c (ih bound' _ (by omega) (by omega))

/-! ### Lists -/

theorem AgreeUpTo.commaSeparated {p q : Parser α} (h : AgreeUpTo rest n p q) :
    AgreeUpTo rest n (commaSeparated p) (commaSeparated q) := by
  intro S c hc
  refine (h True c hc).bind fun first c₁ h₁ => ?_
  refine Confined.andThen (confined_many (fun _ _ => rfl) fun c₂ h₂ hmore => ?_) fun _ _ _ =>
    confined_pure _
  exact confined_advance (by simp_all) fun c₃ h₃ => h False c₃ (by omega)

theorem confined_parenthesized {p q : Parser α}
    (h : ∀ c', c'.spans.length < c.spans.length → Confined rest False c' p q) :
    Confined rest S c (parenthesized p) (parenthesized q) :=
  confined_sign fun c₁ h₁ => (h c₁ h₁).andThen fun _ _ _ => confined_sign fun _ _ => confined_pure _

/-! ### Type descriptors -/

theorem atTypeSuffix_extend (hc : c.Ended) : (c.extend rest).atTypeSuffix = c.atTypeSuffix := by
  by_cases heof : c.current = .eof
  · simp [Cursor.atTypeSuffix, Cursor.extend_current, heof]
  · rw [Cursor.atTypeSuffix, Cursor.extend_current, hc.extend_peek heof, Cursor.atTypeSuffix]

theorem confined_typeSuffix (h : c.atTypeSuffix) : Confined rest S c typeSuffix typeSuffix := by
  have hne : c.current ≠ .eof := by
    intro heof
    simp [Cursor.atTypeSuffix, heof] at h
  refine confined_current ?_
  split
  · exact confined_advance hne fun _ _ => confined_pure _
  · refine confined_advance hne fun _ _ => confined_current ?_
    split
    · rename_i hint
      exact confined_advance (by simp [hint]) fun _ _ => confined_sign fun _ _ => confined_pure _
    · exact confined_fail (by simp)

theorem confined_typeDescriptor : Confined rest S c typeDescriptor typeDescriptor :=
  confined_ident.bind fun _ _ _ =>
    (confined_many (fun _ => atTypeSuffix_extend) fun _ _ => confined_typeSuffix).andThen
      fun _ _ _ => confined_pure _

/-! ### Expressions -/

theorem AgreeUpTo.leftAssoc {operator? : Token → Option BinOp} (heof : operator? .eof = none)
    {p q : Parser Expr} (h : AgreeUpTo rest n p q) :
    AgreeUpTo rest n (leftAssoc operator? p) (leftAssoc operator? q) := by
  intro S c hc
  refine (h True c hc).bind fun first c₁ h₁ => ?_
  refine Confined.andThen (confined_many (fun _ _ => rfl) fun c₂ h₂ hmore => confined_current ?_)
    fun _ _ _ => confined_pure _
  split
  · rename_i op hop
    refine confined_advance ?_ fun c₃ h₃ =>
      (h False c₃ (by omega)).andThen fun _ _ _ => confined_pure _
    intro he
    simp [he, heof] at hop
  · rename_i hop
    simp [hop] at hmore

theorem AgreeUpTo.castsOver {p q : Parser Expr} (h : AgreeUpTo rest n p q) :
    AgreeUpTo rest n (Expr.castsOver p) (Expr.castsOver q) := by
  intro S c hc
  refine (h True c hc).bind fun operand c₁ h₁ => ?_
  refine Confined.andThen (confined_many (fun _ _ => rfl) fun c₂ h₂ hmore => ?_) fun _ _ _ =>
    confined_pure _
  exact confined_advance (by simp_all) fun _ _ => confined_typeDescriptor

theorem AgreeUpTo.levelsOver {p q : Parser Expr} (h : AgreeUpTo rest n p q) :
    AgreeUpTo rest n (Expr.levelsOver p) (Expr.levelsOver q) :=
  .leftAssoc rfl <| .leftAssoc rfl <| .leftAssoc rfl <| .leftAssoc rfl <| .leftAssoc rfl <|
    .leftAssoc rfl h.castsOver

section

variable {p q : Parser Expr} (h : AgreeUpTo rest (c.spans.length - 1) p q)
include h

theorem confined_argumentsOver :
    Confined rest S c (Expr.argumentsOver p) (Expr.argumentsOver q) := by
  refine confined_parenthesized fun c₁ h₁ => confined_sees ?_
  split
  · exact confined_pure []
  · exact h.commaSeparated False c₁ (by omega)

theorem confined_primaryOver : Confined rest S c (Expr.primaryOver p) (Expr.primaryOver q) := by
  refine confined_current ?_
  split
  · rename_i hcurrent
    exact confined_advance (by simp [hcurrent]) fun _ _ => confined_pure _
  · rename_i hcurrent
    exact confined_advance (by simp [hcurrent]) fun _ _ => confined_pure _
  · rename_i hcurrent
    exact confined_advance (by simp [hcurrent]) fun _ _ => confined_pure _
  · exact confined_parenthesized fun c₁ h₁ => h False c₁ (by omega)
  · exact confined_fail (by simp)

theorem confined_postfixedOver :
    Confined rest S c (Expr.postfixedOver p) (Expr.postfixedOver q) := by
  refine confined_get fun hc => ?_
  rw [Cursor.extend_current]
  split
  · rename_i x hcurrent
    have hne : c.current ≠ .eof := by simp [hcurrent]
    rw [hc.extend_peek hne]
    split
    · -- the second token may be the end mark as far as the rules know
      exact confined_advance hne fun _ _ => confined_advance_any fun _ _ => confined_pure _
    · exact confined_advance hne fun c₁ h₁ =>
        (confined_argumentsOver (h.mono (by omega))).andThen fun _ _ _ => confined_pure _
    · exact confined_primaryOver h
  · exact confined_primaryOver h

end

theorem confined_unary {t t' : Spanned} {bound bound' : List Spanned}
    (h : AgreeUpTo rest (c.spans.length - 1) (Expr.unary bound) (Expr.unary bound')) :
    Confined rest S c (Expr.unary (t :: bound)) (Expr.unary (t' :: bound')) := by
  simp only [Expr.unary]
  refine confined_current ?_
  split
  · rename_i hcurrent
    exact confined_advance (by simp [hcurrent]) fun c₁ h₁ =>
      (h False c₁ (by omega)).andThen fun _ _ _ => confined_pure _
  · rename_i hcurrent
    exact confined_advance (by simp [hcurrent]) fun c₁ h₁ =>
      (h False c₁ (by omega)).andThen fun _ _ _ => confined_pure _
  · rename_i hcurrent
    exact confined_advance (by simp [hcurrent]) fun _ _ =>
      confined_ident.andThen fun _ _ _ => confined_pure _
  · rename_i hcurrent
    exact confined_advance (by simp [hcurrent]) fun _ _ =>
      confined_ident.andThen fun _ _ _ => confined_pure _
  · rename_i hcurrent
    exact confined_advance (by simp [hcurrent]) fun _ _ =>
      confined_ident.andThen fun _ _ _ => confined_pure _
  · exact confined_postfixedOver h.levelsOver

theorem agreeUpTo_unary :
    AgreeUpTo rest c.spans.length (Expr.unary c.bound) (Expr.unary (c.extend rest).bound) :=
  agreeUpTo_of_bounded (fun _ _ _ _ _ _ => confined_unary) _ _ _ Cursor.length_spans_le_bound
    Cursor.length_spans_le_bound_extend

theorem confined_unaryParser : Confined rest S c Expr.unaryParser Expr.unaryParser :=
  confined_get fun _ => agreeUpTo_unary S c le_rfl

theorem confined_expression : Confined rest S c Expr.parser Expr.parser :=
  confined_get fun _ => agreeUpTo_unary.levelsOver S c le_rfl

theorem confined_argumentsParser :
    Confined rest S c Expr.argumentsParser Expr.argumentsParser :=
  confined_argumentsOver fun _ _ _ => confined_expression

/-! ### Statements -/

theorem confined_unlessAt {stop : Sign} {p q : Parser α} (h : Confined rest False c p q) :
    Confined rest False c (Stmt.unlessAt stop p) (Stmt.unlessAt stop q) := by
  refine confined_sees ?_
  split
  · exact confined_pure none
  · exact h.andThen fun _ _ _ => confined_pure _

theorem confined_declaration : Confined rest S c Stmt.declaration Stmt.declaration := by
  refine confined_keyword fun _ _ => confined_ident.andThen fun _ _ _ => confined_sign fun _ _ =>
    confined_typeDescriptor.andThen fun _ _ _ => confined_sees ?_
  split
  · exact confined_advance_any fun _ _ => confined_expression.andThen fun _ _ _ => confined_pure _
  · exact confined_pure _

theorem confined_simple : Confined rest S c Stmt.simple Stmt.simple := by
  refine confined_sees ?_
  split
  · rename_i hstar
    refine confined_advance (by simp_all) fun _ _ => confined_unaryParser.andThen fun _ _ _ =>
      confined_sign fun _ _ => confined_expression.andThen fun _ _ _ => ?_
    split
    · exact confined_pure _
    · exact confined_pure _
  · refine confined_ident.bind fun _ _ _ => confined_current ?_
    split
    · exact confined_advance_any fun _ _ => confined_expression.andThen fun _ _ _ => confined_pure _
    · exact confined_advance_any fun _ _ => confined_pure _
    · exact confined_advance_any fun _ _ => confined_pure _
    · exact confined_argumentsParser.andThen fun _ _ _ => confined_pure _
    · exact confined_fail (by simp)

theorem confined_terminated {p q : Parser Stmt} (h : Confined rest True c p q) :
    Confined rest S c (Stmt.terminated p) (Stmt.terminated q) :=
  h.bind fun _ _ _ => confined_sign fun _ _ => confined_pure _

theorem atElseIf_extend (hc : c.Ended) : Stmt.atElseIf (c.extend rest) = Stmt.atElseIf c := by
  by_cases heof : c.current = .eof
  · simp [Stmt.atElseIf, Cursor.extend_current, heof]
  · rw [Stmt.atElseIf, Cursor.extend_current, hc.extend_peek heof, Stmt.atElseIf]

section

variable {p q : Parser Block} (h : AgreeUpTo rest (c.spans.length - 1) p q)
include h

theorem confined_armOver : Confined rest S c (Stmt.armOver p) (Stmt.armOver q) :=
  (confined_parenthesized fun _ _ => confined_expression).bind fun _ c₁ h₁ =>
    (h False c₁ (by omega)).andThen fun _ _ _ => confined_pure _

theorem confined_branchOver : Confined rest S c (Stmt.branchOver p) (Stmt.branchOver q) := by
  refine confined_keyword fun c₁ h₁ =>
    (confined_armOver (h.mono (by omega))).andThen fun _ c₂ h₂ => ?_
  refine Confined.andThen (confined_many ?_ fun c₃ h₃ hmore => ?_) fun _ c₃ h₃ => confined_sees ?_
  · exact fun _ => atElseIf_extend
  · have hne : c₃.current ≠ .eof := by
      intro heof
      simp [Stmt.atElseIf, heof] at hmore
    exact confined_advance hne fun c₄ h₄ => confined_advance_any fun c₅ h₅ =>
      confined_armOver (h.mono (by omega))
  · split
    · exact confined_advance_any fun c₄ h₄ =>
        (h False c₄ (by omega)).andThen fun _ _ _ => confined_pure _
    · exact confined_pure _

theorem confined_forOver : Confined rest S c (Stmt.forOver p) (Stmt.forOver q) := by
  refine confined_keyword fun c₁ h₁ => confined_sign fun c₂ h₂ =>
    (confined_unlessAt ?_).andThen fun _ c₃ h₃ => confined_sign fun c₄ h₄ =>
    (confined_unlessAt confined_expression).andThen fun _ c₅ h₅ => confined_sign fun c₆ h₆ =>
    (confined_unlessAt confined_simple).andThen fun _ c₇ h₇ => confined_sign fun c₈ h₈ =>
    (h False c₈ (by omega)).andThen fun _ _ _ => confined_pure _
  refine confined_sees ?_
  split
  · exact confined_declaration
  · exact confined_simple

theorem confined_statementOver :
    Confined rest S c (Stmt.statementOver p) (Stmt.statementOver q) := by
  refine confined_current ?_
  split
  · exact confined_terminated confined_declaration
  · exact confined_branchOver h
  · rename_i hcurrent
    exact confined_advance (by simp [hcurrent]) fun c₁ h₁ =>
      (confined_parenthesized fun _ _ => confined_expression).andThen fun _ c₂ h₂ =>
        (h False c₂ (by omega)).andThen fun _ _ _ => confined_pure _
  · exact confined_forOver h
  · rename_i hcurrent
    exact confined_terminated (confined_advance (by simp [hcurrent]) fun _ _ => confined_pure _)
  · rename_i hcurrent
    exact confined_terminated (confined_advance (by simp [hcurrent]) fun _ _ => confined_pure _)
  · rename_i hcurrent
    exact confined_terminated (confined_advance (by simp [hcurrent]) fun _ _ =>
      (confined_unlessAt confined_expression).andThen fun _ _ _ => confined_pure _)
  · exact confined_terminated confined_simple

end

theorem confined_inBlock {p q : Parser Stmt} (h : Confined rest S c p q) :
    Confined rest S c (Stmt.inBlock p) (Stmt.inBlock q) := by
  refine confined_get fun _ => ?_
  rw [Cursor.extend_atEnd]
  split
  · exact confined_fail (by simp)
  · exact h

theorem confined_blockWithin {t t' : Spanned} {bound bound' : List Spanned}
    (h : AgreeUpTo rest (c.spans.length - 1) (Stmt.blockWithin bound) (Stmt.blockWithin bound')) :
    Confined rest S c (Stmt.blockWithin (t :: bound)) (Stmt.blockWithin (t' :: bound')) := by
  simp only [Stmt.blockWithin]
  refine confined_sign fun c₁ h₁ => ?_
  refine Confined.andThen (confined_many (fun _ _ => rfl) fun c₂ h₂ _ => ?_) fun _ _ _ =>
    confined_sign fun _ _ => confined_pure _
  exact confined_inBlock (confined_statementOver (h.mono (by omega)))

theorem confined_blockParser : Confined rest S c Stmt.blockParser Stmt.blockParser :=
  confined_get fun _ =>
    agreeUpTo_of_bounded (fun _ _ _ _ _ _ => confined_blockWithin) _ _ _
      Cursor.length_spans_le_bound Cursor.length_spans_le_bound_extend S c le_rfl

/-! ### Items -/

theorem confined_binding {role : NameRole} :
    Confined rest S c (Binding.parser role) (Binding.parser role) :=
  confined_ident.bind fun _ _ _ => confined_sign fun _ _ =>
    confined_typeDescriptor.andThen fun _ _ _ => confined_pure _

theorem confined_header : Confined rest S c FunctionDecl.header FunctionDecl.header := by
  refine confined_keyword fun _ _ => confined_ident.andThen fun _ c₂ _ =>
    (confined_parenthesized fun c₃ _ => confined_sees ?_).andThen fun _ _ _ => confined_sees ?_
  · split
    · exact confined_pure []
    · exact AgreeUpTo.commaSeparated (n := c₃.spans.length) (fun _ _ _ => confined_binding)
        False c₃ le_rfl
  · split
    · exact confined_advance_any fun _ _ =>
        confined_typeDescriptor.andThen fun _ _ _ => confined_pure _
    · exact confined_pure _

theorem confined_structDecl : Confined rest S c StructDecl.parser StructDecl.parser := by
  refine confined_keyword fun _ _ => confined_ident.andThen fun _ _ _ => confined_sign fun _ _ =>
    (confined_many (fun _ _ => rfl) fun _ _ _ => ?_).andThen fun _ _ _ =>
      confined_sign fun _ _ => confined_pure _
  exact confined_binding.bind fun _ _ _ => confined_sign fun _ _ => confined_pure _

theorem confined_item : Confined rest S c Item.parser Item.parser := by
  refine confined_current ?_
  split
  · rename_i hcurrent
    exact confined_advance (by simp [hcurrent]) fun _ _ => confined_header.andThen fun _ _ _ =>
      confined_sign fun _ _ => confined_pure _
  · exact confined_structDecl.bind fun _ _ _ => confined_pure _
  · exact confined_header.bind fun _ _ _ => confined_blockParser.andThen fun _ _ _ =>
      confined_pure _
  · exact confined_fail (by simp)

theorem confined_program : Confined rest False c Program.parser Program.parser :=
  (confined_many (fun _ _ => rfl) fun _ _ _ => confined_item).andThen fun _ _ _ => confined_pure _

end Parser

/-! ### Whole lists -/

section

variable {front : List Spanned} {mark : Spanned} (hmark : mark.token = .eof)
  (hfront : ∀ t ∈ front, t.token ≠ .eof)
include hmark hfront

/-- The cursor on a list that is cut off after its first end mark. -/
theorem Cursor.exists_ended : ∃ c : Cursor, c.Ended ∧ c.spans = front ++ [mark] ∧
    ∀ rest, Cursor.ofList? (front ++ mark :: rest) = some (c.extend rest) := by
  have htokens : (front ++ [mark]).map Spanned.token = front.map Spanned.token ++ [.eof] := by
    simp [hmark]
  have hnone : Token.eof ∉ front.map Spanned.token := by
    intro h
    obtain ⟨t, ht, heof⟩ := List.mem_map.1 h
    exact hfront t ht heof
  cases front with
  | nil => exact ⟨⟨mark, [], false⟩, ⟨rfl, [], htokens, hnone⟩, rfl, fun _ => rfl⟩
  | cons t ts =>
    refine ⟨⟨t, ts ++ [mark], false⟩, ⟨rfl, _, htokens, hnone⟩, rfl, fun rest => ?_⟩
    simp [Cursor.ofList?, Cursor.extend]

end

/-- A cursor that stands on the end mark of a list stands on its last token. -/
theorem Cursor.Ended.eq_of_eof {c : Cursor} (h : c.Ended) (heof : c.current = .eof)
    {front : List Spanned} {mark : Spanned} (hsuffix : c.spans <:+ front ++ [mark]) :
    c = ⟨mark, [], false⟩ := by
  obtain ⟨head, tail, past⟩ := c
  obtain rfl : past = false := h.notPast
  obtain rfl : tail = [] := by
    simpa [Cursor.tokens] using congrArg List.tail (h.tokens_eq heof)
  obtain ⟨before, hbefore⟩ := hsuffix
  obtain ⟨-, hhead⟩ := List.append_inj' hbefore rfl
  cases hhead
  rfl

/-- However often a cursor is moved, the tokens from it on go to the end of the list. -/
theorem Cursor.Ended.iterate_advance {c : Cursor} (h : c.Ended) (rest : List Spanned) (k : Nat) :
    ∃ c' : Cursor, c'.Ended ∧ c'.spans <:+ c.spans ∧
      Cursor.advance^[k] (c.extend rest) = c'.extend rest := by
  induction k with
  | zero => exact ⟨c, h, List.suffix_rfl, rfl⟩
  | succ k ih =>
    obtain ⟨c', hc', hsuffix, hk⟩ := ih
    rw [Function.iterate_succ_apply', hk]
    by_cases heof : c'.current = .eof
    · exact ⟨c', hc', hsuffix, Cursor.advance_of_eof heof⟩
    · obtain ⟨t, ts, htail, hadvance, hextend⟩ := hc'.exists_next heof rest
      refine ⟨c'.advance, (hc'.advance heof).1, ?_, hextend⟩
      have hnext : c'.advance.spans <:+ c'.spans := by simp [hadvance, Cursor.spans, htail]
      exact hnext.trans hsuffix

/-- The runs from a list that goes on after its first end mark, by the run from the list cut off. -/
theorem Program.runs_up_to_mark {c : Cursor} (h : c.Ended) {front : List Spanned} {mark : Spanned}
    (hspans : c.spans = front ++ [mark]) :
    (∃ program, ∀ rest, Program.parser.run (c.extend rest) = .ok (program, ⟨mark, rest, false⟩)) ∨
      ∃ fault, ∃ t ∈ front ++ [mark], fault ≠ .endless ∧
        ∀ rest, Program.parser.run (c.extend rest) = .error ⟨.grammar fault, t.location⟩ := by
  have hconfined : ∀ rest, Parser.Confined rest False c Program.parser Program.parser := fun _ =>
    Parser.confined_program
  -- The list cut off decides how the run ends, and all longer lists follow it.
  cases hrun : Program.parser.run c with
  | ok r =>
    refine .inl ⟨r.1, fun rest => ?_⟩
    rcases hconfined rest h with ⟨program, c', hp, hq, hc', hsuffix, -⟩ | ⟨_, _, _, _, hp, _⟩
    · have hend : c'.current = .eof := by
        simpa [Cursor.atEnd, hc'.notPast] using Program.atEnd_of_run hp
      obtain rfl := hc'.eq_of_eof hend (hspans ▸ hsuffix)
      rw [hrun] at hp
      cases hp
      exact hq
    · rw [hrun] at hp
      cases hp
  | error e =>
    rcases hconfined [] h with ⟨_, _, hp, _⟩ | ⟨fault, t, ht, hne, hp, -⟩
    · rw [hrun] at hp
      cases hp
    · refine .inr ⟨fault, t, hspans ▸ ht, hne, fun rest => ?_⟩
      rcases hconfined rest h with ⟨_, _, hp', _⟩ | ⟨_, _, _, _, hp', hq⟩
      · rw [hp] at hp'
        cases hp'
      · rw [hq, ← hp', hp]

/-- **A program is read up to the first end mark.** Whatever tokens follow it, all of them yield the
same program, and then the cursor stands on that mark, or all of them are refused for the same cause
at the same token, and not because a loop went on for ever. Moving a cursor never leads past the
mark. -/
theorem Program.ofTokens_up_to_mark (front : List Spanned) (mark : Spanned)
    (hmark : mark.token = .eof) (hfront : ∀ t ∈ front, t.token ≠ .eof) :
    ((∃ program, ∀ rest c, Cursor.ofList? (front ++ mark :: rest) = some c →
        Program.parser.run c = .ok (program, ⟨mark, rest, false⟩)) ∨
      ∃ fault, ∃ t ∈ front ++ [mark], fault ≠ .endless ∧
        ∀ rest c, Cursor.ofList? (front ++ mark :: rest) = some c →
          Program.parser.run c = .error ⟨.grammar fault, t.location⟩) ∧
    (∀ rest rest', ofTokens (front ++ mark :: rest) = ofTokens (front ++ mark :: rest')) ∧
    ∀ rest c k, Cursor.ofList? (front ++ mark :: rest) = some c →
      mark :: rest <:+ (Cursor.advance^[k] c).spans ∧ (Cursor.advance^[k] c).past = false := by
  obtain ⟨c₀, hc₀, hspans, hlist⟩ := Cursor.exists_ended hmark hfront
  have hcursor : ∀ {rest c}, Cursor.ofList? (front ++ mark :: rest) = some c →
      c = c₀.extend rest := fun hc => Option.some.inj (hc.symm.trans (hlist _))
  have hruns := Program.runs_up_to_mark hc₀ hspans
  refine ⟨?_, fun rest rest' => ?_, fun rest c k hc => ?_⟩
  · rcases hruns with ⟨program, h⟩ | ⟨fault, t, ht, hne, h⟩
    · refine .inl ⟨program, fun rest c hc => ?_⟩
      rw [hcursor hc, h]
    · refine .inr ⟨fault, t, ht, hne, fun rest c hc => ?_⟩
      rw [hcursor hc, h]
  · simp only [ofTokens, hlist]
    rcases hruns with ⟨program, h⟩ | ⟨fault, t, -, -, h⟩
    · rw [h, h]
      rfl
    · rw [h, h]
  · rw [hcursor hc]
    obtain ⟨c', hc', hsuffix, hk⟩ := hc₀.iterate_advance rest k
    rw [hk]
    have hmem : [mark] <:+ c'.spans :=
      List.suffix_of_suffix_length_le (List.suffix_append front [mark]) (hspans ▸ hsuffix)
        c'.length_spans_pos
    obtain ⟨before, hbefore⟩ := hmem
    refine ⟨⟨before, ?_⟩, hc'.notPast⟩
    rw [List.append_cons, hbefore]
    rfl

/-- `fn` and an end mark, with a whole program after it: the mark is where a name is missing. -/
theorem Program.ofTokens_up_to_mark_fn :
    let fn : Spanned := ⟨.keyword .fn, ⟨1, 1⟩⟩
    let mark : Spanned := ⟨.eof, ⟨1, 3⟩⟩
    let rest : List Spanned := [⟨.name "f", ⟨2, 1⟩⟩, ⟨.sign .openParen, ⟨2, 2⟩⟩,
      ⟨.sign .closeParen, ⟨2, 3⟩⟩, ⟨.sign .openBrace, ⟨2, 4⟩⟩, ⟨.sign .closeBrace, ⟨2, 5⟩⟩]
    mark.token = .eof ∧ (∀ t ∈ [fn], t.token ≠ .eof) ∧
      ofTokens (fn :: mark :: rest) = .error ⟨.grammar (.expectedName .function .eof), ⟨1, 3⟩⟩ ∧
      ofTokens (fn :: mark :: rest) = ofTokens [fn, mark] := by
  intro fn mark rest
  have hfront : ∀ t ∈ [fn], t.token ≠ .eof := by decide
  exact ⟨rfl, hfront, rfl, (ofTokens_up_to_mark [fn] mark rfl hfront).2.1 rest []⟩

end GLang
