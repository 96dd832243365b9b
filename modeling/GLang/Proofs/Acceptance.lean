import GLang.Proofs.Derivation

/-!
# What parsers accept

`Parser.Takes p ts rest a`: before the tokens `rest`, the parser `p` reads exactly `ts`, and yields
`a`. As a parser looks at the token that comes next, each rule says which tokens may follow.

* `Parser.takes_bind`, `Parser.takes_advance`, …: one rule for each step of a parser.
* `Parser.takes_manyWithin_cons`, `Parser.takes_manyWithin_nil`: rounds of a loop.
* `Parser.TakesSeparated`: items with commas between them.
* `Expr.takes_levels`, `Expr.takes_binary`: an expression without a binary operator at its top, and
  one with one.
* `Expr.takes_negate`, …: the forms of unary expressions.
-/

namespace GLang

open Grammar

/-! ### Cursors -/

namespace Cursor

variable {c : Cursor} {t u : Token} {ts : List Token}

theorem current_of_tokens (h : c.tokens = t :: ts) : c.current = t :=
  (List.cons.inj h).1

theorem peek_of_tokens (h : c.tokens = t :: u :: ts) : c.peek = u := by
  have htail := (List.cons.inj h).2
  unfold peek
  split
  · rename_i hnil
    simp [hnil] at htail
  · rename_i hcons
    simp only [hcons, List.map_cons, List.cons.injEq] at htail
    exact htail.1

theorem length_bound : c.bound.length = c.tokens.length + 1 := by
  simp [bound, tokens]

theorem atTypeSuffix_of_isSuffix {rest : List Token} {suffix : String} (h : IsSuffix ts suffix)
    (hts : c.tokens = ts ++ rest) : c.atTypeSuffix := by
  cases h with
  | pointer => rw [atTypeSuffix, current_of_tokens hts]
  | array n => rw [atTypeSuffix, current_of_tokens hts, peek_of_tokens hts]

end Cursor

namespace Parser

/-! ### Rules -/

/-- Before `rest`, the parser `p` reads exactly the tokens `ts`, and yields `a`. -/
def Takes {α : Type} (p : Parser α) (ts rest : List Token) (a : α) : Prop :=
  ∀ c : Cursor, c.Ended → c.tokens = ts ++ rest →
    ∃ c', p.run c = .ok (a, c') ∧ c'.Ended ∧ c'.tokens = rest

variable {α β : Type} {ts us rest tail : List Token} {t : Token} {a : α} {b : β}

theorem takes_pure (a : α) : Takes (pure a) [] rest a :=
  fun c hc hts => ⟨c, rfl, hc, hts⟩

theorem takes_bind {p : Parser α} {f : α → Parser β} (hp : Takes p ts (us ++ rest) a)
    (hf : Takes (f a) us rest b) : Takes (p >>= f) (ts ++ us) rest b := by
  intro c hc hts
  obtain ⟨c₁, hr₁, hc₁, hts₁⟩ := hp c hc (by rw [hts, List.append_assoc])
  obtain ⟨c', hr, hc', hts'⟩ := hf c₁ hc₁ hts₁
  exact ⟨c', run_bind_eq_ok.2 ⟨a, c₁, hr₁, hr⟩, hc', hts'⟩

/-- The second of two parsers reads nothing. -/
theorem takes_bind_nil {p : Parser α} {f : α → Parser β} (hp : Takes p ts rest a)
    (hf : Takes (f a) [] rest b) : Takes (p >>= f) ts rest b := by
  have hbind : Takes (p >>= f) (ts ++ []) rest b := takes_bind hp hf
  rwa [List.append_nil] at hbind

/-- What a parser yields can be put into a tree. -/
theorem takes_map {p : Parser α} (g : α → β) (hp : Takes p ts rest a) :
    Takes (p >>= fun a => pure (g a)) ts rest (g a) :=
  takes_bind_nil hp (takes_pure (g a))

theorem takes_get_ended {f : Cursor → Parser β}
    (h : ∀ c : Cursor, c.Ended → c.tokens = ts ++ rest → Takes (f c) ts rest b) :
    Takes (get >>= f) ts rest b :=
  fun c hc hts => h c hc hts c hc hts

theorem takes_get {f : Cursor → Parser β}
    (h : ∀ c : Cursor, c.tokens = ts ++ rest → Takes (f c) ts rest b) :
    Takes (get >>= f) ts rest b :=
  takes_get_ended fun c _ => h c

theorem takes_current {f : Token → Parser β} (ht : ts ++ rest = t :: tail)
    (h : Takes (f t) ts rest b) : Takes (current >>= f) ts rest b := by
  refine takes_get (f := fun c => f c.current) fun c hts => ?_
  rw [Cursor.current_of_tokens (hts.trans ht)]
  exact h

theorem takes_sees {t' : Token} {f : Bool → Parser β} (ht : ts ++ rest = t :: tail)
    (h : Takes (f (t = t')) ts rest b) : Takes (sees t' >>= f) ts rest b :=
  takes_current (f := fun t => f (t = t')) ht h

theorem takes_advance {f : Unit → Parser β} (hne : t ≠ .eof) (h : Takes (f ()) ts rest b) :
    Takes (advance >>= f) (t :: ts) rest b := by
  intro c hc hts
  have hcurrent := Cursor.current_of_tokens hts
  obtain ⟨hc₁, htokens, -⟩ := hc.advance (hcurrent ▸ hne)
  exact h c.advance hc₁ (List.cons.inj (htokens.symm.trans hts)).2

theorem takes_expect {f : Unit → Parser β} (hne : t ≠ .eof) (h : Takes (f ()) ts rest b) :
    Takes (expect t >>= f) (t :: ts) rest b := by
  rw [expect, bind_assoc]
  refine takes_current rfl ?_
  rw [if_pos rfl]
  exact takes_advance hne h

theorem takes_sign {s : Sign} {f : Unit → Parser β} (h : Takes (f ()) ts rest b) :
    Takes (sign s >>= f) (.sign s :: ts) rest b :=
  takes_expect nofun h

theorem takes_ident {role : NameRole} {x : String} {f : String → Parser β}
    (h : Takes (f x) ts rest b) : Takes (ident role >>= f) (.name x :: ts) rest b := by
  rw [ident, bind_assoc]
  exact takes_current rfl (takes_advance (f := fun _ => f x) (by simp) h)

/-! ### Loops -/

section

variable {more : Cursor → Bool} {item : Parser α} {as : List α} {bound : List Spanned}

theorem takes_manyWithin_nil (hstop : ∀ c : Cursor, c.tokens = rest → more c = false)
    (hb : 0 < bound.length) : Takes (manyWithin more item bound) [] rest [] := by
  cases bound with
  | nil => cases hb
  | cons s bound =>
    refine takes_get fun c hts => ?_
    rw [hstop c hts]
    exact takes_pure []

theorem takes_manyWithin_cons {s : Spanned}
    (hmore : ∀ c : Cursor, c.Ended → c.tokens = ts ++ (us ++ rest) → more c)
    (hitem : Takes item ts (us ++ rest) a) (hrest : Takes (manyWithin more item bound) us rest as) :
    Takes (manyWithin more item (s :: bound)) (ts ++ us) rest (a :: as) := by
  refine takes_get_ended fun c hc hts => ?_
  rw [if_pos (hmore c hc (by rw [hts, List.append_assoc]))]
  exact takes_bind hitem (takes_map (a :: ·) hrest)

/-- A loop of one round. -/
theorem takes_manyWithin_one (hmore : ∀ c : Cursor, c.tokens = ts ++ rest → more c)
    (hitem : Takes item ts rest a) (hstop : ∀ c : Cursor, c.tokens = rest → more c = false)
    (hb : 1 < bound.length) : Takes (manyWithin more item bound) ts rest [a] := by
  cases bound with
  | nil => cases hb
  | cons s bound =>
    have hnil : Takes (manyWithin more item bound) [] rest [] :=
      takes_manyWithin_nil hstop (Nat.lt_of_succ_lt_succ hb)
    have hone : Takes (manyWithin more item (s :: bound)) (ts ++ []) rest [a] :=
      takes_manyWithin_cons (fun c _ => hmore c) hitem hnil
    rwa [List.append_nil] at hone

/-- The tokens left are bound enough for a loop in which each round reads a token. -/
theorem takes_many (h : ∀ bound : List Spanned, ts.length < bound.length →
    Takes (manyWithin more item bound) ts rest as) : Takes (many more item) ts rest as := by
  refine takes_get fun c hts => h _ ?_
  rw [Cursor.length_bound, hts, List.length_append]
  omega

theorem takes_many_nil (hstop : ∀ c : Cursor, c.tokens = rest → more c = false) :
    Takes (many more item) [] rest [] :=
  takes_many fun _ => takes_manyWithin_nil hstop

theorem takes_many_one (hmore : ∀ c : Cursor, c.tokens = t :: (ts ++ rest) → more c)
    (hitem : Takes item (t :: ts) rest a)
    (hstop : ∀ c : Cursor, c.tokens = rest → more c = false) :
    Takes (many more item) (t :: ts) rest [a] :=
  takes_many fun _ hb => takes_manyWithin_one hmore hitem hstop
    (Nat.lt_of_le_of_lt (Nat.succ_le_succ (Nat.zero_le _)) hb)

end

/-- Items that `item` reads, with commas between them. -/
inductive TakesSeparated (item : Parser α) (rest : List Token) : List Token → List α → Prop where
  | one {ts : List Token} {a : α} (h : Takes item ts rest a) : TakesSeparated item rest ts [a]
  | cons {ts us : List Token} {a : α} {as : List α}
      (h : Takes item ts (.sign .comma :: (us ++ rest)) a) (hs : TakesSeparated item rest us as) :
      TakesSeparated item rest (ts ++ .sign .comma :: us) (a :: as)

/-- The first item and the rounds of the loop over the others. -/
theorem TakesSeparated.rounds {item : Parser α} {as : List α}
    (h : TakesSeparated item (.sign .closeParen :: rest) ts as) :
    ∃ us vs b bs, ts = us ++ vs ∧ as = b :: bs ∧
      Takes item us (vs ++ .sign .closeParen :: rest) b ∧
      ∀ bound : List Spanned, vs.length < bound.length →
        Takes (manyWithin (·.current = .sign .comma) (do advance; item) bound) vs
          (.sign .closeParen :: rest) bs := by
  induction h with
  | @one ts a ha =>
    refine ⟨ts, [], a, [], by simp, rfl, ha, fun bound => takes_manyWithin_nil fun c hts => ?_⟩
    rw [Cursor.current_of_tokens hts]
    rfl
  | @cons ts us a as ha _ ih =>
    obtain ⟨us, vs, b, bs, rfl, rfl, hb, hbs⟩ := ih
    refine ⟨ts, .sign .comma :: (us ++ vs), a, b :: bs, rfl, rfl, ha, fun bound hbound => ?_⟩
    obtain ⟨s, bound, rfl⟩ := List.exists_cons_of_length_pos (Nat.zero_lt_of_lt hbound)
    rw [List.length_cons, List.length_cons, List.length_append] at hbound
    have hround :
        Takes (do advance; item) (.sign .comma :: us) (vs ++ .sign .closeParen :: rest) b :=
      takes_advance nofun hb
    refine takes_manyWithin_cons (fun c _ hts => ?_) hround (hbs bound (by omega))
    rw [Cursor.current_of_tokens hts]
    rfl

theorem TakesSeparated.takes {item : Parser α} {as : List α}
    (h : TakesSeparated item (.sign .closeParen :: rest) ts as) :
    Takes (commaSeparated item) ts (.sign .closeParen :: rest) as := by
  obtain ⟨us, vs, b, bs, rfl, rfl, hb, hbs⟩ := h.rounds
  exact takes_bind hb (takes_map (b :: ·) (takes_many hbs))

/-- Items with commas between them, before a closing parenthesis. -/
theorem takesSeparated_of_separated {item : Parser α} {Q : List Token → α → Prop} {as : List α}
    (hitem : ∀ ts a t rest, Q ts a → t = .sign .comma ∨ t = .sign .closeParen →
      Takes item ts (t :: rest) a) (h : Separated Q ts as) :
    TakesSeparated item (.sign .closeParen :: rest) ts as := by
  induction h with
  | one ha => exact .one (hitem _ _ _ _ ha (.inr rfl))
  | cons ha _ ih => exact .cons (hitem _ _ _ _ ha (.inl rfl)) ih

theorem takes_parenthesized {item : Parser α} (h : Takes item ts (.sign .closeParen :: rest) a) :
    Takes (parenthesized item) (parens ts) rest a :=
  takes_sign (takes_bind h (takes_sign (takes_pure a)))

/-- An empty list in parentheses. -/
theorem takes_listed_nil {item : Parser α} :
    Takes (parenthesized do
      if ← sees (.sign .closeParen) then return [] else commaSeparated item)
      (parens []) rest [] :=
  takes_parenthesized (takes_sees rfl (takes_pure []))

/-- A list in parentheses that is not empty. It does not start with a closing parenthesis. -/
theorem takes_listed_some {item : Parser α} {as : List α}
    (hfirst : ∃ t us, ts = t :: us ∧ t ≠ .sign .closeParen)
    (h : TakesSeparated item (.sign .closeParen :: rest) ts as) :
    Takes (parenthesized do
      if ← sees (.sign .closeParen) then return [] else commaSeparated item)
      (parens ts) rest as := by
  obtain ⟨t, us, rfl, hne⟩ := hfirst
  refine takes_parenthesized (takes_sees rfl ?_)
  rw [if_neg (by simpa using hne)]
  exact h.takes

theorem exists_cons_of_separated {Q : List Token → α → Prop} {as : List α}
    (hfirst : ∀ ts a, Q ts a → ∃ t us, ts = t :: us ∧ t ≠ .sign .closeParen)
    (h : Separated Q ts as) : ∃ t us, ts = t :: us ∧ t ≠ .sign .closeParen := by
  cases h with
  | one ha => exact hfirst _ _ ha
  | cons ha _ =>
    obtain ⟨t, us, rfl, hne⟩ := hfirst _ _ ha
    exact ⟨t, _, rfl, hne⟩

/-- A list in parentheses that can be empty. No item starts with a closing parenthesis. -/
theorem takes_listed {item : Parser α} {Q : List Token → α → Prop} {as : List α}
    (hitem : ∀ ts a t rest, Q ts a → t = .sign .comma ∨ t = .sign .closeParen →
      Takes item ts (t :: rest) a)
    (hfirst : ∀ ts a, Q ts a → ∃ t us, ts = t :: us ∧ t ≠ .sign .closeParen) (h : Listed Q ts as) :
    Takes (parenthesized do
      if ← sees (.sign .closeParen) then return [] else commaSeparated item)
      (parens ts) rest as := by
  cases h with
  | nil => exact takes_listed_nil
  | some h =>
    exact takes_listed_some (exists_cons_of_separated hfirst h)
      (takesSeparated_of_separated hitem h)

/-! ### Types and operators -/

theorem takes_typeSuffix {suffix : String} (h : IsSuffix ts suffix) :
    Takes typeSuffix ts rest suffix := by
  cases h with
  | pointer => exact takes_current rfl (takes_advance nofun (takes_pure _))
  | array n =>
    exact takes_current rfl (takes_advance nofun (takes_current rfl (takes_advance nofun
      (takes_sign (takes_pure _)))))

theorem takes_typeDescriptor {text : String} (h : IsType ts text)
    (hstop : ∀ c : Cursor, c.tokens = rest → c.atTypeSuffix = false) :
    Takes typeDescriptor ts rest text := by
  obtain ⟨x, h⟩ := h
  refine takes_ident (takes_map _ (takes_many fun bound => ?_))
  induction h generalizing bound with
  | nil => exact takes_manyWithin_nil hstop
  | @cons ts us suffix suffixes hsuffix _ ih =>
    intro hb
    have hpos : 0 < ts.length := by
      cases hsuffix <;> exact Nat.succ_pos _
    cases bound with
    | nil => cases hb
    | cons s bound =>
      rw [List.length_append, List.length_cons] at hb
      exact takes_manyWithin_cons (fun c _ => Cursor.atTypeSuffix_of_isSuffix hsuffix)
        (takes_typeSuffix hsuffix) (ih bound (by omega))

section

variable {operator? : Token → Option BinOp} {operand : Parser Expr} {l r e : Expr}

theorem takes_leftAssoc_nil (h : Takes operand ts (t :: rest) e) (ht : operator? t = none) :
    Takes (leftAssoc operator? operand) ts (t :: rest) e := by
  refine takes_bind_nil h (takes_map _ (takes_many_nil fun c hts => ?_))
  rw [Cursor.current_of_tokens hts, ht]
  rfl

theorem takes_leftAssoc_one {s : Token} {op : BinOp} (hs : operator? s = some op) (hne : s ≠ .eof)
    (hl : Takes operand ts (s :: (us ++ t :: rest)) l) (hr : Takes operand us (t :: rest) r)
    (ht : operator? t = none) :
    Takes (leftAssoc operator? operand) (ts ++ s :: us) (t :: rest) (.binary op l r) := by
  refine takes_bind hl (takes_map _ (takes_many_one (a := (op, r)) (fun c hts => ?_) ?_
    fun c hts => ?_))
  · rw [Cursor.current_of_tokens hts, hs]
    rfl
  · refine takes_current rfl ?_
    rw [hs]
    exact takes_advance hne (takes_map _ hr)
  · rw [Cursor.current_of_tokens hts, ht]
    rfl

end

end Parser

/-! ### Expressions -/

namespace Expr

open GLang.Parser

variable {ts us rest : List Token} {t : Token} {e l r : Expr}

/-- The operators of each level, the loosest first. -/
def levels : List (Token → Option BinOp) :=
  [BinOp.disjunction?, BinOp.conjunction?, BinOp.equality?, BinOp.comparison?, BinOp.sum?,
    BinOp.product?]

theorem levelsOver_eq (unary : Parser Expr) :
    levelsOver unary = levels.foldr leftAssoc (castsOver unary) := rfl

/-- No expression goes on with this token. -/
def Closes (t : Token) : Prop :=
  t = .sign .closeParen ∨ t = .sign .comma ∨ t = .eof

theorem Closes.operator? (h : Closes t) : ∀ operator? ∈ levels, operator? t = none := by
  rcases h with rfl | rfl | rfl <;> simp [levels, BinOp.disjunction?, BinOp.conjunction?,
    BinOp.equality?, BinOp.comparison?, BinOp.sum?, BinOp.product?]

theorem Closes.ne_as (h : Closes t) : t ≠ .keyword .as_ := by
  rcases h with rfl | rfl | rfl <;> nofun

section

variable {unary : Parser Expr}

theorem takes_castsOver_nil (h : Takes unary ts (t :: rest) e) (ht : t ≠ .keyword .as_) :
    Takes (castsOver unary) ts (t :: rest) e := by
  refine takes_bind_nil h (takes_map _ (takes_many_nil fun c hts => ?_))
  rw [Cursor.current_of_tokens hts]
  exact decide_eq_false ht

theorem takes_castsOver_one {target : String}
    (he : Takes unary ts (.keyword .as_ :: (us ++ t :: rest)) e) (hty : IsType us target)
    (hstop : ∀ c : Cursor, c.tokens = t :: rest → c.atTypeSuffix = false) (ht : t ≠ .keyword .as_) :
    Takes (castsOver unary) (ts ++ .keyword .as_ :: us) (t :: rest) (.cast e target) := by
  refine takes_bind he (takes_map _ (takes_many_one (fun c hts => ?_) ?_ fun c hts => ?_))
  · rw [Cursor.current_of_tokens hts]
    rfl
  · exact takes_advance nofun (takes_typeDescriptor hty hstop)
  · rw [Cursor.current_of_tokens hts]
    exact decide_eq_false ht

/-- Levels whose operators do not come next. -/
theorem takes_foldr {operators : List (Token → Option BinOp)} {operand : Parser Expr}
    (h : Takes operand ts (t :: rest) e) (ht : ∀ operator? ∈ operators, operator? t = none) :
    Takes (operators.foldr leftAssoc operand) ts (t :: rest) e := by
  induction operators with
  | nil => exact h
  | cons operator? operators ih =>
    obtain ⟨hhead, htail⟩ := List.forall_mem_cons.1 ht
    exact takes_leftAssoc_nil (ih htail) hhead

theorem takes_levels (h : Takes (castsOver unary) ts (t :: rest) e) (ht : Closes t) :
    Takes (levelsOver unary) ts (t :: rest) e :=
  takes_foldr h ht.operator?

/-- Every operator belongs to a level, and to no tighter one. -/
theorem exists_levels_of_isOperator {level : Precedence} {s : Sign} {op : BinOp}
    (h : IsOperator level s op) : ∃ looser operator? tighter,
      levels = looser ++ operator? :: tighter ∧ operator? (.sign s) = some op ∧
      ∀ operator? ∈ tighter, operator? (.sign s) = none := by
  cases h with
  | or =>
    exact ⟨levels.take 0, _, _, rfl, rfl, by simp [BinOp.conjunction?, BinOp.equality?,
      BinOp.comparison?, BinOp.sum?, BinOp.product?]⟩
  | and =>
    exact ⟨levels.take 1, _, _, rfl, rfl, by simp [BinOp.equality?, BinOp.comparison?, BinOp.sum?,
      BinOp.product?]⟩
  | equal | notEqual =>
    exact ⟨levels.take 2, _, _, rfl, rfl, by simp [BinOp.comparison?, BinOp.sum?, BinOp.product?]⟩
  | less | lessEqual | greater | greaterEqual =>
    exact ⟨levels.take 3, _, _, rfl, rfl, by simp [BinOp.sum?, BinOp.product?]⟩
  | add | subtract => exact ⟨levels.take 4, _, _, rfl, rfl, by simp [BinOp.product?]⟩
  | multiply | divide => exact ⟨levels.take 5, _, _, rfl, rfl, by simp⟩

theorem takes_binary {level : Precedence} {s : Sign} {op : BinOp} (hop : IsOperator level s op)
    (hl : Takes unary ts (.sign s :: (us ++ t :: rest)) l) (hr : Takes unary us (t :: rest) r)
    (ht : Closes t) :
    Takes (levelsOver unary) (ts ++ .sign s :: us) (t :: rest) (.binary op l r) := by
  obtain ⟨looser, operator?, tighter, hlevels, hs, htighter⟩ := exists_levels_of_isOperator hop
  have hclosed := ht.operator?
  rw [hlevels] at hclosed
  obtain ⟨hlooser, hhere, hclosed⟩ : (∀ operator? ∈ looser, operator? t = none) ∧
      operator? t = none ∧ ∀ operator? ∈ tighter, operator? t = none := by
    simpa [or_imp, forall_and] using hclosed
  rw [levelsOver_eq, hlevels, List.foldr_append, List.foldr_cons]
  refine takes_foldr (takes_leftAssoc_one hs nofun ?_ ?_ hhere) hlooser
  · exact takes_foldr (takes_castsOver_nil hl nofun) htighter
  · exact takes_foldr (takes_castsOver_nil hr ht.ne_as) hclosed

end

/-! ### Unary expressions -/

section

variable {s : Spanned} {bound : List Spanned} {x : String}

theorem takes_negate (h : Takes (unary bound) ts rest e) :
    Takes (unary (s :: bound)) (.sign .minus :: ts) rest (.negate e) :=
  takes_current rfl (takes_advance nofun (takes_map _ h))

theorem takes_deref (h : Takes (unary bound) ts rest e) :
    Takes (unary (s :: bound)) (.sign .star :: ts) rest (.deref e) :=
  takes_current rfl (takes_advance nofun (takes_map _ h))

theorem takes_addressOf :
    Takes (unary (s :: bound)) [.sign .ampersand, .name x] rest (.addressOf x) :=
  takes_current rfl (takes_advance nofun (takes_ident (takes_pure _)))

theorem takes_stepBefore {sign : Sign} {op : StepOp} (hop : IsStep sign op) :
    Takes (unary (s :: bound)) [.sign sign, .name x] rest (.step op .before (.var x)) := by
  cases hop <;> exact takes_current rfl (takes_advance nofun (takes_ident (takes_pure _)))

theorem takes_int {n : Int} : Takes (unary (s :: bound)) [.int n] rest (.int n) := by
  refine takes_current rfl (takes_get fun c hts => ?_)
  rw [Cursor.current_of_tokens hts]
  exact takes_current rfl (takes_advance nofun (takes_pure _))

theorem takes_str {raw : String} : Takes (unary (s :: bound)) [.str raw] rest (.str raw) := by
  refine takes_current rfl (takes_get fun c hts => ?_)
  rw [Cursor.current_of_tokens hts]
  exact takes_current rfl (takes_advance nofun (takes_pure _))

theorem takes_parens (h : Takes (levelsOver (unary bound)) ts (.sign .closeParen :: rest) e) :
    Takes (unary (s :: bound)) (parens ts) rest e := by
  refine takes_current rfl (takes_get fun c hts => ?_)
  rw [Cursor.current_of_tokens hts]
  exact takes_current rfl (takes_parenthesized h)

/-- A name alone. Neither a step nor an opening parenthesis may follow. -/
theorem takes_var (hstep : StepOp.ofToken? t = none) (hopen : t ≠ .sign .openParen) :
    Takes (unary (s :: bound)) [.name x] (t :: rest) (.var x) := by
  refine takes_current rfl (takes_get fun c hts => ?_)
  rw [Cursor.current_of_tokens hts, Cursor.peek_of_tokens hts]
  split
  · rename_i hx
    cases hx
    split
    · rename_i hop
      rw [hstep] at hop
      cases hop
    · exact absurd rfl hopen
    · exact takes_current rfl (takes_advance nofun (takes_pure _))
  · rename_i hname
    exact absurd rfl (hname x)

theorem takes_stepAfter {sign : Sign} {op : StepOp} (hop : IsStep sign op) :
    Takes (unary (s :: bound)) [.name x, .sign sign] rest (.step op .after (.var x)) := by
  refine takes_current rfl (takes_get fun c hts => ?_)
  rw [Cursor.current_of_tokens hts, Cursor.peek_of_tokens hts]
  cases hop <;> exact takes_advance nofun (takes_advance nofun (takes_pure _))

theorem takes_call_of_arguments {args : List Expr}
    (h : Takes (argumentsOver (levelsOver (unary bound))) (parens ts) rest args) :
    Takes (unary (s :: bound)) (.name x :: parens ts) rest (.call x args) := by
  refine takes_current rfl (takes_get fun c hts => ?_)
  rw [Cursor.current_of_tokens hts, Cursor.peek_of_tokens hts]
  exact takes_advance nofun (takes_map _ h)

theorem takes_call {Q : List Token → Expr → Prop} {args : List Expr}
    (hitem : ∀ ts e t rest, Q ts e → t = .sign .comma ∨ t = .sign .closeParen →
      Takes (levelsOver (unary bound)) ts (t :: rest) e)
    (hfirst : ∀ ts e, Q ts e → ∃ t us, ts = t :: us ∧ t ≠ .sign .closeParen)
    (h : Listed Q ts args) :
    Takes (unary (s :: bound)) (.name x :: parens ts) rest (.call x args) :=
  takes_call_of_arguments (takes_listed hitem hfirst h)

end

end Expr

end GLang
