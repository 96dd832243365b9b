import Mathlib
import GLang.Token.Cursor

/-!
# Reading from a list with an end mark

* `Cursor.tokens`: the tokens from the cursor on. `Cursor.Ended`: the last of them is the only end
  mark, so that the cursor can be moved over every other token.
* `Parser.Reads`: what a parser that succeeds has read. There is one rule for each step of a parser,
  and `Parser.reads_many` for all loops.
-/

namespace GLang

/-! ### Cursors -/

namespace Cursor

variable {c : Cursor}

/-- The tokens from the current one on. -/
def tokens (c : Cursor) : List Token :=
  c.current :: c.tail.map Spanned.token

/-- The cursor stands on a list that ends with its only end mark. -/
structure Ended (c : Cursor) : Prop where
  notPast : c.past = false
  ended : ∃ ts, c.tokens = ts ++ [.eof] ∧ .eof ∉ ts

/-- Before the end mark there is a next token. -/
theorem Ended.advance (h : c.Ended) (hne : c.current ≠ .eof) :
    c.advance.Ended ∧ c.tokens = c.current :: c.advance.tokens ∧ c.advance.current = c.peek := by
  obtain ⟨hpast, ts, hts, heof⟩ := h
  have hend : c.atEnd = false := by
    simp [atEnd, hpast, hne]
  cases ts with
  | nil =>
    rw [tokens, List.nil_append, List.cons.injEq] at hts
    exact absurd hts.1 hne
  | cons t ts =>
    rw [tokens, List.cons_append, List.cons.injEq] at hts
    cases htail : c.tail with
    | nil => simp [htail] at hts
    | cons t' rest =>
      have hadvance : c.advance = ⟨t', rest, false⟩ := by
        simp [Cursor.advance, hend, htail]
      have htokens : c.advance.tokens = ts ++ [.eof] := by
        rw [← hts.2, hadvance, htail]
        rfl
      have hmem : .eof ∉ ts := fun hmem => heof (List.mem_cons_of_mem _ hmem)
      refine ⟨⟨by rw [hadvance], ts, htokens, hmem⟩, ?_, ?_⟩
      · rw [htokens, tokens, hts.2]
      · rw [hadvance, peek, htail]
        rfl

/-- At the end mark nothing is left. -/
theorem Ended.tokens_eq (h : c.Ended) (heof : c.current = .eof) : c.tokens = [.eof] := by
  obtain ⟨-, ts, hts, hmem⟩ := h
  cases ts with
  | nil => exact hts
  | cons t ts =>
    rw [tokens, heof, List.cons_append, List.cons.injEq] at hts
    exact absurd (hts.1 ▸ List.mem_cons_self) hmem

end Cursor

namespace Parser

/-! ### Rules -/

/-- From the cursor `c` the parser `p` reads tokens that are in the relation `R` with its value. -/
def Reads {α : Type} (c : Cursor) (p : Parser α) (R : List Token → α → Prop) : Prop :=
  c.Ended → ∀ a c', p.run c = .ok (a, c') →
    c'.Ended ∧ ∃ ts, c.tokens = ts ++ c'.tokens ∧ R ts a

variable {α β : Type} {c : Cursor} {Q : List Token → α → Prop} {R : List Token → β → Prop}

theorem Reads.weaken {p : Parser β} {R' : List Token → β → Prop} (h : Reads c p R)
    (hR : ∀ ts b, R ts b → R' ts b) : Reads c p R' := by
  intro hc b c' hr
  obtain ⟨hc', ts, hts, hb⟩ := h hc b c' hr
  exact ⟨hc', ts, hts, hR ts b hb⟩

theorem reads_pure {b : β} (h : R [] b) : Reads c (pure b) R := by
  intro hc b' c' hr
  cases hr
  exact ⟨hc, [], rfl, h⟩

theorem reads_fail (fault : GrammarFault) : Reads c (fail fault) R := by
  intro _ b c' hr
  cases hr

theorem run_bind_eq_ok {p : Parser α} {f : α → Parser β} {b : β} {c' : Cursor} :
    (p >>= f).run c = .ok (b, c') ↔ ∃ a c₁, p.run c = .ok (a, c₁) ∧ (f a).run c₁ = .ok (b, c') := by
  rw [StateT.run_bind]
  cases p.run c with
  | error e => exact ⟨nofun, fun ⟨_, _, h, _⟩ => nomatch h⟩
  | ok r =>
    obtain ⟨a, c₁⟩ := r
    constructor
    · exact fun h => ⟨a, c₁, rfl, h⟩
    · rintro ⟨a, c₁, h, hf⟩
      cases h
      exact hf

theorem reads_bind {p : Parser α} {f : α → Parser β} (hp : Reads c p Q)
    (hf : ∀ ts a c', Q ts a → Reads c' (f a) fun us b => R (ts ++ us) b) : Reads c (p >>= f) R := by
  intro hc b c' hr
  obtain ⟨a, c₁, hpc, hr⟩ := run_bind_eq_ok.1 hr
  obtain ⟨hc₁, ts, hts, ha⟩ := hp hc a c₁ hpc
  obtain ⟨hc', us, hus, hb⟩ := hf ts a c₁ ha hc₁ b c' hr
  refine ⟨hc', ts ++ us, ?_, hb⟩
  rw [hts, hus, List.append_assoc]

/-- What a parser yields can be put into a tree. -/
theorem reads_map {p : Parser α} {g : α → β} (hp : Reads c p Q)
    (hg : ∀ ts a, Q ts a → R ts (g a)) : Reads c (p >>= fun a => pure (g a)) R :=
  reads_bind hp fun ts a _ ha => reads_pure (by rw [List.append_nil]; exact hg ts a ha)

theorem reads_get {f : Cursor → Parser β} (h : Reads c (f c) R) : Reads c (get >>= f) R := h

theorem reads_current {f : Token → Parser β} (h : Reads c (f c.current) R) :
    Reads c (current >>= f) R := h

theorem reads_sees {t : Token} {f : Bool → Parser β} (h : Reads c (f (c.current = t)) R) :
    Reads c (sees t >>= f) R := h

/-- A parser moves on from a token that it knows. -/
theorem reads_advance {t : Token} {f : Unit → Parser β} (ht : c.current = t) (hne : t ≠ .eof)
    (hf : c.advance.current = c.peek → Reads c.advance (f ()) fun us b => R (t :: us) b) :
    Reads c (advance >>= f) R := by
  intro hc b c' hr
  obtain ⟨hc₁, htokens, hpeek⟩ := hc.advance (ht ▸ hne)
  obtain ⟨hc', us, hus, hb⟩ := hf hpeek hc₁ b c' hr
  refine ⟨hc', t :: us, ?_, hb⟩
  rw [htokens, hus, ht, List.cons_append]

theorem reads_expect {t : Token} {f : Unit → Parser β} (hne : t ≠ .eof)
    (hf : ∀ c', Reads c' (f ()) fun us b => R (t :: us) b) : Reads c (expect t >>= f) R := by
  rw [expect, bind_assoc]
  refine reads_current ?_
  split
  · rename_i ht
    exact reads_advance ht hne fun _ => hf _
  · exact reads_bind (Q := fun _ _ => False) (reads_fail _) fun _ _ _ h => h.elim

theorem reads_sign {s : Sign} {f : Unit → Parser β}
    (hf : ∀ c', Reads c' (f ()) fun us b => R (.sign s :: us) b) : Reads c (sign s >>= f) R :=
  reads_expect nofun hf

theorem reads_keyword {k : Keyword} {f : Unit → Parser β}
    (hf : ∀ c', Reads c' (f ()) fun us b => R (.keyword k :: us) b) : Reads c (keyword k >>= f) R :=
  reads_expect nofun hf

theorem reads_ident {role : NameRole} {f : String → Parser β}
    (hf : ∀ x c', Reads c' (f x) fun us b => R (.name x :: us) b) :
    Reads c (ident role >>= f) R := by
  rw [ident, bind_assoc]
  refine reads_current ?_
  split
  · rename_i x hx
    rw [bind_assoc]
    exact reads_advance hx nofun fun _ => hf x _
  · exact reads_bind (Q := fun _ _ => False) (reads_fail _) fun _ _ _ h => h.elim

/-- **All loops.** What is read is built up from the end. -/
theorem reads_manyWithin {more : Cursor → Bool} {item : Parser α} {R : List Token → List α → Prop}
    (hnil : R [] []) (hcons : ∀ ts a us as, Q ts a → R us as → R (ts ++ us) (a :: as))
    (hitem : ∀ c, more c → Reads c item Q) (bound : List Spanned) :
    ∀ c, Reads c (manyWithin more item bound) R := by
  induction bound with
  | nil => exact fun c => reads_fail _
  | cons _ bound ih =>
    intro c
    refine reads_get ?_
    split
    · rename_i hmore
      refine reads_bind (hitem c hmore) fun ts a c ha => reads_map (ih c) fun us as has => ?_
      exact hcons ts a us as ha has
    · exact reads_pure hnil

theorem reads_many {more : Cursor → Bool} {item : Parser α} {R : List Token → List α → Prop}
    (hnil : R [] []) (hcons : ∀ ts a us as, Q ts a → R us as → R (ts ++ us) (a :: as))
    (hitem : ∀ c, more c → Reads c item Q) : Reads c (many more item) R :=
  reads_get (reads_manyWithin hnil hcons hitem _ c)

/-- A loop ends where its condition fails. -/
theorem more_eq_false_of_manyWithin {more : Cursor → Bool} {item : Parser α}
    (bound : List Spanned) :
    ∀ {c : Cursor} {as : List α} {c' : Cursor},
      (manyWithin more item bound).run c = .ok (as, c') → more c' = false := by
  induction bound with
  | nil =>
    intro c as c' h
    cases h
  | cons _ bound ih =>
    intro c as c' h
    obtain ⟨_, _, hget, h⟩ := run_bind_eq_ok.1 h
    cases hget
    split at h
    · obtain ⟨a, c₁, -, h⟩ := run_bind_eq_ok.1 h
      obtain ⟨rest, c₂, hrest, h⟩ := run_bind_eq_ok.1 h
      cases h
      exact ih hrest
    · rename_i hmore
      cases h
      exact Bool.eq_false_iff.2 hmore

end Parser

end GLang
