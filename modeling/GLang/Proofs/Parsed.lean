import Mathlib
import GLang.Asm.Label
import GLang.Syntax.Program.Parser

/-!
# What the parser makes

A program that has been read from a source text is not any tree. Names are words, so that no name
holds a comment, and the clauses of a `for` loop are simple statements: only the first can be a
declaration.

* `Expr.wellFormed`, `Stmt.wellFormed`: the shape of such trees.
* `Parser.Ensures`: what holds of all results of a parser, over tokens whose names are words. Each
  parser of the grammar gets one lemma.
* `FunctionDecl.wellFormed_of_source`: the functions of a source text have this shape.
-/

namespace GLang

open Asm

/-! ### Shapes -/

mutual

/-- Whether all functions called are named by words. -/
def Expr.wellFormed : Expr → Bool
  | .call f args => isPlainName f && Expr.allWellFormed args
  | .deref e | .cast e _ | .negate e | .step _ _ e => e.wellFormed
  | .binary _ l r => l.wellFormed && r.wellFormed
  | .int _ | .str _ | .var _ | .addressOf _ => true

def Expr.allWellFormed : List Expr → Bool
  | [] => true
  | e :: rest => e.wellFormed && Expr.allWellFormed rest

end

theorem Expr.allWellFormed_iff {es : List Expr} :
    Expr.allWellFormed es ↔ ∀ e ∈ es, e.wellFormed := by
  induction es with
  | nil => simp [allWellFormed]
  | cons e es ih => simp [allWellFormed, ih]

namespace Stmt

/-- Assignments, steps and calls. -/
def isSimple : Stmt → Bool
  | .assign _ _ | .store _ _ | .storeAt _ _ | .step _ _ | .run (.call _ _) => true
  | _ => false

/-- What can stand first in a `for` loop. -/
def isOpening : Stmt → Bool
  | .declare _ _ _ => true
  | s => s.isSimple

mutual

/-- Whether all functions called are named by words, and the clauses of `for` loops are simple. -/
def wellFormed : Stmt → Bool
  | .declare _ _ init => init.all Expr.wellFormed
  | .assign _ value | .store _ value => value.wellFormed
  | .storeAt address value => address.wellFormed && value.wellFormed
  | .step _ _ | .breakLoop | .continueLoop => true
  | .branch first others otherwise =>
    armWellFormed first && armsWellFormed others && elseWellFormed otherwise
  | .whileLoop condition body => condition.wellFormed && allWellFormed body
  | .forLoop init condition increment body =>
    init.all isOpening && clauseWellFormed init && condition.all Expr.wellFormed &&
      increment.all isSimple && clauseWellFormed increment && allWellFormed body
  | .ret value => value.all Expr.wellFormed
  | .run e => e.wellFormed

def allWellFormed : List Stmt → Bool
  | [] => true
  | s :: rest => s.wellFormed && allWellFormed rest

def armWellFormed : Arm → Bool
  | .mk condition body => condition.wellFormed && allWellFormed body

def armsWellFormed : List Arm → Bool
  | [] => true
  | a :: rest => armWellFormed a && armsWellFormed rest

def elseWellFormed : Option (List Stmt) → Bool
  | none => true
  | some body => allWellFormed body

def clauseWellFormed : Option Stmt → Bool
  | none => true
  | some s => s.wellFormed

end

theorem allWellFormed_iff {body : List Stmt} : allWellFormed body ↔ ∀ s ∈ body, s.wellFormed := by
  induction body with
  | nil => simp [allWellFormed]
  | cons s body ih => simp [allWellFormed, ih]

theorem armsWellFormed_iff {arms : List Arm} :
    armsWellFormed arms ↔ ∀ a ∈ arms, armWellFormed a := by
  induction arms with
  | nil => simp [armsWellFormed]
  | cons a arms ih => simp [armsWellFormed, ih]

end Stmt

/-! ### Parsers over words -/

/-- The name that a token is, if it is one, holds no comment. -/
def Token.IsPlain (t : Token) : Prop :=
  ∀ x, t = .name x → isPlainName x

def Cursor.IsPlain (c : Cursor) : Prop :=
  c.current.IsPlain ∧ ∀ t ∈ c.tail, t.token.IsPlain

theorem Cursor.IsPlain.advance {c : Cursor} (h : c.IsPlain) : c.advance.IsPlain := by
  unfold Cursor.advance
  split
  · exact h
  · split
    · exact ⟨h.1, by simp_all⟩
    · rename_i t ts ht
      exact ⟨h.2 t (by rw [ht]; exact List.mem_cons_self),
        fun t' ht' => h.2 t' (by rw [ht]; exact List.mem_cons_of_mem t ht')⟩

namespace Parser

/-- All results of `p` satisfy `Q`. -/
def Ensures {α : Type} (p : Parser α) (Q : α → Prop) : Prop :=
  ∀ c a c', c.IsPlain → p.run c = .ok (a, c') → Q a ∧ c'.IsPlain

variable {α β : Type} {Q : α → Prop} {R : β → Prop}

theorem ensures_pure {a : α} (h : Q a) : Ensures (pure a) Q := by
  intro c b c' hc hr
  cases hr
  exact ⟨h, hc⟩

theorem ensures_bind {p : Parser α} {f : α → Parser β} (hp : Ensures p Q)
    (hf : ∀ a, Q a → Ensures (f a) R) : Ensures (p >>= f) R := by
  intro c b c' hc hr
  rw [StateT.run_bind] at hr
  cases hpc : p.run c with
  | error e =>
    rw [hpc] at hr
    cases hr
  | ok r =>
    obtain ⟨a, c₁⟩ := r
    rw [hpc] at hr
    obtain ⟨ha, hc₁⟩ := hp c a c₁ hc hpc
    exact hf a ha c₁ b c' hc₁ hr

theorem Ensures.weaken {p : Parser α} {Q' : α → Prop} (hp : Ensures p Q) (h : ∀ a, Q a → Q' a) :
    Ensures p Q' := by
  intro c a c' hc hr
  obtain ⟨ha, hc'⟩ := hp c a c' hc hr
  exact ⟨h a ha, hc'⟩

theorem ensures_get : Ensures get Cursor.IsPlain := by
  intro c a c' hc hr
  cases hr
  exact ⟨hc, hc⟩

theorem ensures_current : Ensures current Token.IsPlain :=
  ensures_bind ensures_get fun _ hc => ensures_pure hc.1

theorem ensures_fail (fault : GrammarFault) : Ensures (fail fault) Q := by
  intro c a c' _ hr
  cases hr

theorem ensures_advance : Ensures advance fun _ => True := by
  intro c a c' hc hr
  cases hr
  exact ⟨trivial, hc.advance⟩

theorem ensures_expect (t : Token) : Ensures (expect t) fun _ => True := by
  refine ensures_bind ensures_current fun found _ => ?_
  split
  · exact ensures_advance
  · exact ensures_fail _

theorem ensures_sign (s : Sign) : Ensures (sign s) fun _ => True :=
  ensures_expect _

theorem ensures_keyword (k : Keyword) : Ensures (keyword k) fun _ => True :=
  ensures_expect _

theorem ensures_ident (role : NameRole) : Ensures (ident role) fun x => isPlainName x := by
  refine ensures_bind ensures_current fun t ht => ?_
  split
  · rename_i x
    exact ensures_bind ensures_advance fun _ _ => ensures_pure (ht x rfl)
  · exact ensures_fail _

theorem ensures_sees (t : Token) : Ensures (sees t) fun _ => True :=
  ensures_bind ensures_get fun _ _ => ensures_pure trivial

theorem ensures_manyWithin (more : Cursor → Bool) {item : Parser α} (h : Ensures item Q)
    (bound : List Spanned) : Ensures (manyWithin more item bound) fun as => ∀ a ∈ as, Q a := by
  induction bound with
  | nil => exact ensures_fail _
  | cons _ bound ih =>
    refine ensures_bind ensures_get fun c _ => ?_
    split
    · refine ensures_bind h fun a ha => ensures_bind ih fun rest hrest => ensures_pure ?_
      exact List.forall_mem_cons.2 ⟨ha, hrest⟩
    · exact ensures_pure (by simp)

theorem ensures_many (more : Cursor → Bool) {item : Parser α} (h : Ensures item Q) :
    Ensures (many more item) fun as => ∀ a ∈ as, Q a :=
  ensures_bind ensures_get fun _ _ => ensures_manyWithin more h _

theorem ensures_commaSeparated {item : Parser α} (h : Ensures item Q) :
    Ensures (commaSeparated item) fun as => ∀ a ∈ as, Q a := by
  refine ensures_bind h fun first hfirst => ?_
  refine ensures_bind (ensures_many _ (ensures_bind ensures_advance fun _ _ => h))
    fun rest hrest => ensures_pure ?_
  exact List.forall_mem_cons.2 ⟨hfirst, hrest⟩

theorem ensures_parenthesized {item : Parser α} (h : Ensures item Q) :
    Ensures (parenthesized item) Q :=
  ensures_bind (ensures_sign _) fun _ _ => ensures_bind h fun _ ha =>
    ensures_bind (ensures_sign _) fun _ _ => ensures_pure ha

/-! ### Expressions -/

theorem ensures_typeSuffix : Ensures typeSuffix fun _ => True := by
  refine ensures_bind ensures_current fun t _ => ?_
  split
  · exact ensures_bind ensures_advance fun _ _ => ensures_pure trivial
  · refine ensures_bind ensures_advance fun _ _ => ensures_bind ensures_current fun t _ => ?_
    split
    · exact ensures_bind ensures_advance fun _ _ =>
        ensures_bind (ensures_sign _) fun _ _ => ensures_pure trivial
    · exact ensures_fail _

theorem ensures_typeDescriptor : Ensures typeDescriptor fun _ => True :=
  ensures_bind (ensures_ident _) fun _ _ =>
    ensures_bind (ensures_many _ ensures_typeSuffix) fun _ _ => ensures_pure trivial

theorem ensures_leftAssoc (operator? : Token → Option BinOp) {operand : Parser Expr}
    (h : Ensures operand fun e => e.wellFormed) :
    Ensures (leftAssoc operator? operand) fun e => e.wellFormed := by
  refine ensures_bind h fun first hfirst => ?_
  refine ensures_bind (Q := fun rest => ∀ r ∈ rest, r.2.wellFormed) ?_ fun rest hrest => ?_
  · refine ensures_many _ (ensures_bind ensures_current fun t _ => ?_)
    split
    · exact ensures_bind ensures_advance fun _ _ => ensures_bind h fun _ hr => ensures_pure hr
    · exact ensures_bind ensures_current fun _ _ => ensures_fail _
  · refine ensures_pure ?_
    induction rest generalizing first with
    | nil => exact hfirst
    | cons r rest ih =>
      obtain ⟨hr, hrest⟩ := List.forall_mem_cons.1 hrest
      exact ih _ (by simp [Expr.wellFormed, hfirst, hr]) hrest

end Parser

namespace Expr

open GLang.Parser

theorem ensures_castsOver {unary : Parser Expr} (h : Ensures unary fun e => e.wellFormed) :
    Ensures (castsOver unary) fun e => e.wellFormed := by
  refine ensures_bind h fun operand hoperand => ?_
  refine ensures_bind (Q := fun _ => True) ?_ fun targets _ => ?_
  · exact (ensures_many _ (ensures_bind ensures_advance fun _ _ => ensures_typeDescriptor)).weaken
      fun _ _ => trivial
  · refine ensures_pure ?_
    induction targets generalizing operand with
    | nil => exact hoperand
    | cons target targets ih => exact ih _ (by simpa [Expr.wellFormed] using hoperand)

theorem ensures_levelsOver {unary : Parser Expr} (h : Ensures unary fun e => e.wellFormed) :
    Ensures (levelsOver unary) fun e => e.wellFormed :=
  ensures_leftAssoc _ <| ensures_leftAssoc _ <| ensures_leftAssoc _ <| ensures_leftAssoc _ <|
    ensures_leftAssoc _ <| ensures_leftAssoc _ <| ensures_castsOver h

theorem ensures_argumentsOver {expression : Parser Expr}
    (h : Ensures expression fun e => e.wellFormed) :
    Ensures (argumentsOver expression) fun es => allWellFormed es := by
  refine ensures_parenthesized (ensures_bind (ensures_sees _) fun _ _ => ?_)
  split
  · exact ensures_pure rfl
  · exact (ensures_commaSeparated h).weaken fun es hes => allWellFormed_iff.2 hes

theorem ensures_primaryOver {expression : Parser Expr}
    (h : Ensures expression fun e => e.wellFormed) :
    Ensures (primaryOver expression) fun e => e.wellFormed := by
  refine ensures_bind ensures_current fun t _ => ?_
  split
  · exact ensures_bind ensures_advance fun _ _ => ensures_pure rfl
  · exact ensures_bind ensures_advance fun _ _ => ensures_pure rfl
  · exact ensures_bind ensures_advance fun _ _ => ensures_pure rfl
  · exact ensures_parenthesized h
  · exact ensures_fail _

theorem ensures_postfixedOver {expression : Parser Expr}
    (h : Ensures expression fun e => e.wellFormed) :
    Ensures (postfixedOver expression) fun e => e.wellFormed := by
  refine ensures_bind ensures_get fun c hc => ?_
  split
  · rename_i x hx
    split
    · exact ensures_bind ensures_advance fun _ _ =>
        ensures_bind ensures_advance fun _ _ => ensures_pure rfl
    · refine ensures_bind ensures_advance fun _ _ =>
        ensures_bind (ensures_argumentsOver h) fun args hargs => ensures_pure ?_
      have hf : isPlainName x := hc.1 x hx
      simp [Expr.wellFormed, hf, hargs]
    · exact ensures_primaryOver h
  · exact ensures_primaryOver h

theorem ensures_unary (bound : List Spanned) : Ensures (unary bound) fun e => e.wellFormed := by
  induction bound with
  | nil => exact ensures_fail _
  | cons _ bound ih =>
    refine ensures_bind ensures_current fun t _ => ?_
    split
    · exact ensures_bind ensures_advance fun _ _ => ensures_bind ih fun e he =>
        ensures_pure (by simpa [Expr.wellFormed] using he)
    · exact ensures_bind ensures_advance fun _ _ => ensures_bind ih fun e he =>
        ensures_pure (by simpa [Expr.wellFormed] using he)
    · exact ensures_bind ensures_advance fun _ _ => ensures_bind (ensures_ident _) fun _ _ =>
        ensures_pure rfl
    · exact ensures_bind ensures_advance fun _ _ => ensures_bind (ensures_ident _) fun _ _ =>
        ensures_pure rfl
    · exact ensures_bind ensures_advance fun _ _ => ensures_bind (ensures_ident _) fun _ _ =>
        ensures_pure rfl
    · exact ensures_postfixedOver (ensures_levelsOver ih)

theorem ensures_unaryParser : Ensures unaryParser fun e => e.wellFormed :=
  ensures_bind ensures_get fun _ _ => ensures_unary _

theorem ensures_expression : Ensures parser fun e => e.wellFormed :=
  ensures_bind ensures_get fun _ _ => ensures_levelsOver (ensures_unary _)

theorem ensures_argumentsParser : Ensures argumentsParser fun es => allWellFormed es :=
  ensures_argumentsOver ensures_expression

end Expr

/-! ### Statements -/

namespace Stmt

open GLang.Parser

theorem ensures_declaration : Ensures declaration fun s => s.wellFormed ∧ s.isOpening := by
  refine ensures_bind (ensures_keyword _) fun _ _ => ensures_bind (ensures_ident _) fun x _ => ?_
  refine ensures_bind (ensures_sign _) fun _ _ =>
    ensures_bind ensures_typeDescriptor fun type _ => ?_
  refine ensures_bind (ensures_sees _) fun _ _ => ?_
  split
  · refine ensures_bind ensures_advance fun _ _ =>
      ensures_bind Expr.ensures_expression fun e he => ensures_pure ⟨?_, rfl⟩
    simpa [wellFormed] using he
  · exact ensures_pure ⟨rfl, rfl⟩

theorem ensures_simple : Ensures simple fun s => s.wellFormed ∧ s.isSimple := by
  refine ensures_bind (ensures_sees _) fun _ _ => ?_
  split
  · refine ensures_bind ensures_advance fun _ _ =>
      ensures_bind Expr.ensures_unaryParser fun address haddress => ?_
    refine ensures_bind (ensures_sign _) fun _ _ =>
      ensures_bind Expr.ensures_expression fun value hvalue => ?_
    split
    · exact ensures_pure ⟨hvalue, rfl⟩
    · exact ensures_pure ⟨by simp [wellFormed, haddress, hvalue], rfl⟩
  · refine ensures_bind (ensures_ident _) fun x hx => ensures_bind ensures_current fun t _ => ?_
    split
    · exact ensures_bind ensures_advance fun _ _ =>
        ensures_bind Expr.ensures_expression fun e he => ensures_pure ⟨he, rfl⟩
    · exact ensures_bind ensures_advance fun _ _ => ensures_pure ⟨rfl, rfl⟩
    · exact ensures_bind ensures_advance fun _ _ => ensures_pure ⟨rfl, rfl⟩
    · refine ensures_bind Expr.ensures_argumentsParser fun args hargs => ensures_pure ⟨?_, rfl⟩
      simp [wellFormed, Expr.wellFormed, hx, hargs]
    · exact ensures_fail _

section Nested

variable {block : Parser Block} (h : Ensures block fun body => allWellFormed body)

include h

theorem ensures_armOver : Ensures (armOver block) fun a => armWellFormed a := by
  refine ensures_bind (ensures_parenthesized Expr.ensures_expression) fun condition hcondition =>
    ensures_bind h fun body hbody => ensures_pure ?_
  simp [armWellFormed, hcondition, hbody]

theorem ensures_branchOver : Ensures (branchOver block) fun s => s.wellFormed := by
  refine ensures_bind (ensures_keyword _) fun _ _ =>
    ensures_bind (ensures_armOver h) fun first hfirst => ?_
  refine ensures_bind (ensures_many _ (ensures_bind ensures_advance fun _ _ =>
    ensures_bind ensures_advance fun _ _ => ensures_armOver h)) fun others hothers => ?_
  have hothers := armsWellFormed_iff.2 hothers
  refine ensures_bind (ensures_sees _) fun _ _ => ?_
  split
  · refine ensures_bind ensures_advance fun _ _ =>
      ensures_bind h fun body hbody => ensures_pure ?_
    simp [wellFormed, elseWellFormed, hfirst, hothers, hbody]
  · refine ensures_pure ?_
    simp [wellFormed, elseWellFormed, hfirst, hothers]

omit h in
theorem ensures_unlessAt {α : Type} {Q : α → Prop} (stop : Sign) {item : Parser α}
    (hitem : Ensures item Q) : Ensures (unlessAt stop item) fun o => ∀ a, o = some a → Q a := by
  refine ensures_bind (ensures_sees _) fun _ _ => ?_
  split
  · exact ensures_pure (by simp)
  · refine ensures_bind hitem fun a ha => ensures_pure ?_
    rintro b hb
    cases hb
    exact ha

theorem ensures_forOver : Ensures (forOver block) fun s => s.wellFormed := by
  refine ensures_bind (ensures_keyword _) fun _ _ => ensures_bind (ensures_sign _) fun _ _ => ?_
  refine ensures_bind (ensures_unlessAt .semicolon (Q := fun s => s.wellFormed ∧ s.isOpening)
    (ensures_bind (ensures_sees _) fun _ _ => ?_)) fun init hinit => ?_
  · split
    · exact ensures_declaration
    · refine ensures_simple.weaken fun s hs => ⟨hs.1, ?_⟩
      unfold isOpening
      split
      · rfl
      · exact hs.2
  refine ensures_bind (ensures_sign _) fun _ _ =>
    ensures_bind (ensures_unlessAt _ Expr.ensures_expression) fun condition hcondition => ?_
  refine ensures_bind (ensures_sign _) fun _ _ =>
    ensures_bind (ensures_unlessAt _ ensures_simple) fun increment hincrement => ?_
  refine ensures_bind (ensures_sign _) fun _ _ => ensures_bind h fun body hbody =>
    ensures_pure ?_
  cases init <;> cases condition <;> cases increment <;>
    simp_all [wellFormed, clauseWellFormed]

omit h in
theorem ensures_terminated {item : Parser Stmt} (hitem : Ensures item fun s => s.wellFormed) :
    Ensures (terminated item) fun s => s.wellFormed :=
  ensures_bind hitem fun _ hs => ensures_bind (ensures_sign _) fun _ _ => ensures_pure hs

theorem ensures_statementOver : Ensures (statementOver block) fun s => s.wellFormed := by
  refine ensures_bind ensures_current fun t _ => ?_
  split
  · exact ensures_terminated (ensures_declaration.weaken fun _ hs => hs.1)
  · exact ensures_branchOver h
  · refine ensures_bind ensures_advance fun _ _ =>
      ensures_bind (ensures_parenthesized Expr.ensures_expression) fun condition hcondition =>
        ensures_bind h fun body hbody => ensures_pure ?_
    simp [wellFormed, hcondition, hbody]
  · exact ensures_forOver h
  · exact ensures_terminated (ensures_bind ensures_advance fun _ _ => ensures_pure rfl)
  · exact ensures_terminated (ensures_bind ensures_advance fun _ _ => ensures_pure rfl)
  · refine ensures_terminated (ensures_bind ensures_advance fun _ _ =>
      ensures_bind (ensures_unlessAt _ Expr.ensures_expression) fun value hvalue => ensures_pure ?_)
    cases value <;> simp_all [wellFormed]
  · exact ensures_terminated (ensures_simple.weaken fun _ hs => hs.1)

end Nested

theorem ensures_inBlock {statement : Parser Stmt} (h : Ensures statement fun s => s.wellFormed) :
    Ensures (inBlock statement) fun s => s.wellFormed := by
  refine ensures_bind ensures_get fun c _ => ?_
  split
  · exact ensures_fail _
  · exact h

theorem ensures_blockWithin (bound : List Spanned) :
    Ensures (blockWithin bound) fun body => allWellFormed body := by
  induction bound with
  | nil => exact ensures_fail _
  | cons _ bound ih =>
    refine ensures_bind (ensures_sign _) fun _ _ =>
      ensures_bind (ensures_many _ (ensures_inBlock (ensures_statementOver ih))) fun body hbody =>
        ensures_bind (ensures_sign _) fun _ _ => ensures_pure ?_
    exact allWellFormed_iff.2 hbody

theorem ensures_blockParser : Ensures blockParser fun body => allWellFormed body :=
  ensures_bind ensures_get fun _ _ => ensures_blockWithin _

end Stmt

/-! ### Programs -/

/-- The name and the body of a function have the shape of what is read. -/
def FunctionDecl.wellFormed (decl : FunctionDecl) : Bool :=
  isPlainName decl.name && Stmt.allWellFormed decl.body

open GLang.Parser

theorem Binding.ensures_binding (role : NameRole) : Ensures (Binding.parser role) fun _ => True :=
  ensures_bind (ensures_ident _) fun _ _ => ensures_bind (ensures_sign _) fun _ _ =>
    ensures_bind ensures_typeDescriptor fun _ _ => ensures_pure trivial

theorem FunctionDecl.ensures_header :
    Ensures FunctionDecl.header fun decl => isPlainName decl.name := by
  refine ensures_bind (ensures_keyword _) fun _ _ => ensures_bind (ensures_ident _) fun f hf => ?_
  refine ensures_bind (Q := fun _ => True) ?_ fun params _ => ?_
  · refine ensures_parenthesized (ensures_bind (ensures_sees _) fun _ _ => ?_)
    split
    · exact ensures_pure trivial
    · exact (ensures_commaSeparated (Binding.ensures_binding _)).weaken fun _ _ => trivial
  · refine ensures_bind (ensures_sees _) fun _ _ => ?_
    split
    · exact ensures_bind ensures_advance fun _ _ =>
        ensures_bind ensures_typeDescriptor fun _ _ => ensures_pure hf
    · exact ensures_pure hf

theorem StructDecl.ensures_struct : Ensures StructDecl.parser fun _ => True := by
  refine ensures_bind (ensures_keyword _) fun _ _ => ensures_bind (ensures_ident _) fun _ _ => ?_
  refine ensures_bind (ensures_sign _) fun _ _ => ?_
  refine ensures_bind (ensures_many _ (ensures_bind (Binding.ensures_binding _) fun _ _ =>
    ensures_bind (Q := fun _ => True) (ensures_sign _) fun _ _ =>
      ensures_pure (Q := fun _ => True) trivial)) fun _ _ => ?_
  exact ensures_bind (ensures_sign _) fun _ _ => ensures_pure trivial

theorem Item.ensures_item :
    Ensures Item.parser fun item => ∀ decl, item = .function decl → decl.wellFormed := by
  refine ensures_bind ensures_current fun t _ => ?_
  split
  · exact ensures_bind ensures_advance fun _ _ =>
      ensures_bind FunctionDecl.ensures_header fun _ _ =>
        ensures_bind (ensures_sign _) fun _ _ => ensures_pure (by simp)
  · exact ensures_bind StructDecl.ensures_struct fun _ _ => ensures_pure (by simp)
  · refine ensures_bind FunctionDecl.ensures_header fun decl hdecl =>
      ensures_bind Stmt.ensures_blockParser fun body hbody => ensures_pure ?_
    rintro decl' h
    cases h
    simp [FunctionDecl.wellFormed, hdecl, hbody]
  · exact ensures_fail _

theorem Program.ensures_program :
    Ensures Program.parser fun p => ∀ decl, .function decl ∈ p.items → decl.wellFormed :=
  ensures_bind (ensures_many _ Item.ensures_item) fun _ hitems =>
    ensures_pure fun decl hdecl => hitems _ hdecl decl rfl

/-! ### Tokens -/

theorem Lexer.isPlain_word {cs : List Char} (h : ∀ c ∈ cs, continuesName c) :
    (word cs).IsPlain := by
  intro x hx
  simp only [word] at hx
  split at hx
  · cases hx
  · cases hx
    refine List.all_eq_true.2 fun c hc => ?_
    rw [String.toList_ofList] at hc
    have := h c hc
    refine decide_eq_true ?_
    rintro rfl
    revert this
    decide

theorem Lexer.isPlain_lexeme {c : Char} {cs : List Char} {token : Token} {more : Nat}
    (h : lexeme c cs = .ok (token, more)) : token.IsPlain := by
  rintro x rfl
  simp only [lexeme] at h
  repeat' split at h
  -- Only a word can be a name.
  all_goals try cases h
  rename_i hname
  have hword : word (c :: cs.takeWhile continuesName) = .name x :=
    congrArg Prod.fst (Except.ok.inj h)
  refine isPlain_word ?_ x hword
  intro c' hc'
  rcases List.mem_cons.1 hc' with rfl | hc'
  · unfold startsName at hname
    unfold continuesName Char.isAlphanum
    grind
  · exact List.mem_takeWhile_imp hc'

theorem Lexer.isPlain_scan {cs : List Char} :
    ∀ {skip : Nat} {p : Location} {tokens : List Spanned}, scan skip p cs = .ok tokens →
      ∀ t ∈ tokens, t.token.IsPlain := by
  induction cs with
  | nil =>
    intro skip p tokens h t ht
    cases h
    rw [List.mem_singleton.1 ht]
    intro x hx
    cases hx
  | cons c cs ih =>
    intro skip p tokens h
    cases skip with
    | succ skip => exact ih h
    | zero =>
      rw [scan] at h
      split at h
      · exact ih h
      · split at h
        · exact ih h
        · split at h
          · rename_i token more hl
            cases hrest : scan more (p.next c) cs with
            | error e =>
              rw [hrest] at h
              cases h
            | ok rest =>
              rw [hrest] at h
              cases h
              exact List.forall_mem_cons.2 ⟨isPlain_lexeme hl, ih hrest⟩
          · cases h

/-- **The functions of a source text are well-formed.** -/
theorem FunctionDecl.wellFormed_of_source {source : String} {p : Program} {decl : FunctionDecl}
    (h : Program.ofSource source = .ok p) (hd : .function decl ∈ p.items) : decl.wellFormed := by
  unfold Program.ofSource at h
  cases ht : Token.ofSource source with
  | error e =>
    rw [ht] at h
    cases h
  | ok tokens =>
    have hplain := Lexer.isPlain_scan ht
    rw [ht] at h
    replace h : Program.ofTokens tokens = .ok p := h
    unfold Program.ofTokens at h
    cases tokens with
    | nil =>
      cases h
      cases hd
    | cons t tokens =>
      have hc : Cursor.IsPlain ⟨t, tokens, false⟩ :=
        ⟨hplain t List.mem_cons_self, fun t' ht' => hplain t' (List.mem_cons_of_mem t ht')⟩
      replace h : (Program.parser.run ⟨t, tokens, false⟩).map Prod.fst = .ok p := h
      cases hr : Program.parser.run ⟨t, tokens, false⟩ with
      | error e =>
        rw [hr] at h
        cases h
      | ok r =>
        rw [hr] at h
        cases h
        exact (Program.ensures_program _ r.1 r.2 hc hr).1 decl hd

end GLang
