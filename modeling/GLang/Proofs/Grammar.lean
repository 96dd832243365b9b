import GLang.Syntax.Program
import GLang.Token

/-!
# The grammar

Which token lists spell which trees. The rules say nothing about how a text is read: they do not
look ahead, and no rule is preferred to another.

* `IsType`: type descriptors and their text.
* `IsExpr`: expressions. The index says how tightly the outermost operator binds; the left operand
  of a binary operator is of the same level and the right one of the next, so operators group to the
  left.
* `IsStmt`, `IsBlock`: statements and blocks.
* `IsItem`, `IsProgram`: programs.
-/

namespace GLang.Grammar

/-! ### Lists of tokens -/

/-- `( … )` -/
def parens (ts : List Token) : List Token :=
  .sign .openParen :: (ts ++ [.sign .closeParen])

@[simp] theorem length_parens (ts : List Token) : (parens ts).length = ts.length + 2 := by
  simp [parens]

/-- `{ … }` -/
def braces (ts : List Token) : List Token :=
  .sign .openBrace :: (ts ++ [.sign .closeBrace])

section

variable {α : Type} (R : List Token → α → Prop)

/-- `R?` -/
inductive Maybe : List Token → Option α → Prop where
  | none : Maybe [] none
  | some {ts a} (h : R ts a) : Maybe ts (some a)

/-- `R*` -/
inductive Many : List Token → List α → Prop where
  | nil : Many [] []
  | cons {ts us a as} (h : R ts a) (hs : Many us as) : Many (ts ++ us) (a :: as)

/-- `R (',' R)*` -/
inductive Separated : List Token → List α → Prop where
  | one {ts a} (h : R ts a) : Separated ts [a]
  | cons {ts us a as} (h : R ts a) (hs : Separated us as) :
      Separated (ts ++ .sign .comma :: us) (a :: as)

/-- `(R (',' R)*)?` -/
inductive Listed : List Token → List α → Prop where
  | nil : Listed [] []
  | some {ts as} (h : Separated R ts as) : Listed ts as

end

/-! ### Types -/

/-- `'*' | '(' NUMBER ')'`, and its text. -/
inductive IsSuffix : List Token → String → Prop where
  | pointer : IsSuffix [.sign .star] "*"
  | array (n : Int) : IsSuffix (parens [.int n]) s!"({n})"

/-- `IDENT ('*' | '(' NUMBER ')')*`, and its text. -/
inductive IsType : List Token → String → Prop where
  | mk {ts suffixes} (x : String) (h : Many IsSuffix ts suffixes) :
      IsType (.name x :: ts) (x ++ String.join suffixes)

/-! ### Expressions -/

/-- The levels of expressions, the loosest first. -/
inductive Precedence where
  | or | and | equality | relational | additive | multiplicative
  | cast | unary | postfixed | primary
  deriving DecidableEq, Repr

/-- The next level. -/
def Precedence.tighter : Precedence → Precedence
  | or => and
  | and => equality
  | equality => relational
  | relational => additive
  | additive => multiplicative
  | multiplicative => cast
  | cast => unary
  | unary => postfixed
  | postfixed | primary => primary

/-- The binary operators of a level, with their signs. -/
inductive IsOperator : Precedence → Sign → BinOp → Prop where
  | or : IsOperator .or .orOr .or
  | and : IsOperator .and .andAnd .and
  | equal : IsOperator .equality .equalEqual .equal
  | notEqual : IsOperator .equality .notEqual .notEqual
  | less : IsOperator .relational .less .less
  | lessEqual : IsOperator .relational .lessEqual .lessEqual
  | greater : IsOperator .relational .greater .greater
  | greaterEqual : IsOperator .relational .greaterEqual .greaterEqual
  | add : IsOperator .additive .plus .add
  | subtract : IsOperator .additive .minus .subtract
  | multiply : IsOperator .multiplicative .star .multiply
  | divide : IsOperator .multiplicative .slash .divide

/-- `'++' | '--'` -/
inductive IsStep : Sign → StepOp → Prop where
  | increment : IsStep .plusPlus .increment
  | decrement : IsStep .minusMinus .decrement

/-- The expressions of a level. Parentheses leave no trace in the tree. -/
inductive IsExpr : Precedence → List Token → Expr → Prop where
  | tighter {level ts e} (h : IsExpr level.tighter ts e) : IsExpr level ts e
  | binary {level s op ts us l r} (hop : IsOperator level s op) (hl : IsExpr level ts l)
      (hr : IsExpr level.tighter us r) : IsExpr level (ts ++ .sign s :: us) (.binary op l r)
  | cast {ts us e target} (he : IsExpr .cast ts e) (ht : IsType us target) :
      IsExpr .cast (ts ++ .keyword .as_ :: us) (.cast e target)
  | negate {ts e} (h : IsExpr .unary ts e) : IsExpr .unary (.sign .minus :: ts) (.negate e)
  | deref {ts e} (h : IsExpr .unary ts e) : IsExpr .unary (.sign .star :: ts) (.deref e)
  | addressOf (x : String) : IsExpr .unary [.sign .ampersand, .name x] (.addressOf x)
  | stepBefore {s op} (x : String) (hop : IsStep s op) :
      IsExpr .unary [.sign s, .name x] (.step op .before (.var x))
  | stepAfter {s op} (x : String) (hop : IsStep s op) :
      IsExpr .postfixed [.name x, .sign s] (.step op .after (.var x))
  | call {ts args} (f : String) (h : Listed (IsExpr .or) ts args) :
      IsExpr .postfixed (.name f :: parens ts) (.call f args)
  | int (n : Int) : IsExpr .primary [.int n] (.int n)
  | str (raw : String) : IsExpr .primary [.str raw] (.str raw)
  | var (x : String) : IsExpr .primary [.name x] (.var x)
  | parens {ts e} (h : IsExpr .or ts e) : IsExpr .primary (parens ts) e

/-! ### Statements -/

/-- `'var' IDENT ':' type ('=' expr)?` -/
inductive IsDeclaration : List Token → Stmt → Prop where
  | plain {ts type} (x : String) (ht : IsType ts type) :
      IsDeclaration (.keyword .var :: .name x :: .sign .colon :: ts) (.declare x type none)
  | initialised {ts us type e} (x : String) (ht : IsType ts type) (he : IsExpr .or us e) :
      IsDeclaration (.keyword .var :: .name x :: .sign .colon :: (ts ++ .sign .equals :: us))
        (.declare x type (some e))

/-- `IDENT '=' expr | '*' unary '=' expr | IDENT '++' | IDENT '--' | call`. A store is through a
pointer by name exactly if its address is the tree of a name. -/
inductive IsSimple : List Token → Stmt → Prop where
  | assign {ts e} (x : String) (he : IsExpr .or ts e) :
      IsSimple (.name x :: .sign .equals :: ts) (.assign x e)
  | store {ts us x e} (ha : IsExpr .unary ts (.var x)) (he : IsExpr .or us e) :
      IsSimple (.sign .star :: (ts ++ .sign .equals :: us)) (.store x e)
  | storeAt {ts us address e} (ha : IsExpr .unary ts address) (hne : ∀ x, address ≠ .var x)
      (he : IsExpr .or us e) :
      IsSimple (.sign .star :: (ts ++ .sign .equals :: us)) (.storeAt address e)
  | step {s op} (x : String) (hop : IsStep s op) : IsSimple [.name x, .sign s] (.step op x)
  | run {ts args} (f : String) (h : Listed (IsExpr .or) ts args) :
      IsSimple (.name f :: parens ts) (.run (.call f args))

/-- `decl | simple` -/
inductive IsOpening : List Token → Stmt → Prop where
  | declaration {ts s} (h : IsDeclaration ts s) : IsOpening ts s
  | simple {ts s} (h : IsSimple ts s) : IsOpening ts s

mutual

inductive IsStmt : List Token → Stmt → Prop where
  | declare {ts s} (h : IsDeclaration ts s) : IsStmt (ts ++ [.sign .semicolon]) s
  | simple {ts s} (h : IsSimple ts s) : IsStmt (ts ++ [.sign .semicolon]) s
  | branch {ts us vs first others otherwise} (hfirst : IsArm ts first)
      (hothers : Many IsElseIf us others) (helse : Maybe IsElse vs otherwise) :
      IsStmt (.keyword .if_ :: (ts ++ us ++ vs)) (.branch first others otherwise)
  | whileLoop {ts us condition body} (hc : IsExpr .or ts condition) (hb : IsBlock us body) :
      IsStmt (.keyword .while_ :: (parens ts ++ us)) (.whileLoop condition body)
  | forLoop {ts us vs ws init condition increment body} (hinit : Maybe IsOpening ts init)
      (hc : Maybe (IsExpr .or) us condition) (hstep : Maybe IsSimple vs increment)
      (hb : IsBlock ws body) :
      IsStmt (.keyword .for_ ::
          (parens (ts ++ .sign .semicolon :: (us ++ .sign .semicolon :: vs)) ++ ws))
        (.forLoop init condition increment body)
  | breakLoop : IsStmt [.keyword .break_, .sign .semicolon] .breakLoop
  | continueLoop : IsStmt [.keyword .continue_, .sign .semicolon] .continueLoop
  | ret {ts value} (h : Maybe (IsExpr .or) ts value) :
      IsStmt (.keyword .return_ :: (ts ++ [.sign .semicolon])) (.ret value)

/-- `'{' stmt* '}'` -/
inductive IsBlock : List Token → Block → Prop where
  | mk {ts body} (h : Many IsStmt ts body) : IsBlock (braces ts) body

/-- `'(' expr ')' block` -/
inductive IsArm : List Token → Arm → Prop where
  | mk {ts us condition body} (hc : IsExpr .or ts condition) (hb : IsBlock us body) :
      IsArm (parens ts ++ us) (.mk condition body)

/-- `'else' 'if' '(' expr ')' block` -/
inductive IsElseIf : List Token → Arm → Prop where
  | mk {ts arm} (h : IsArm ts arm) : IsElseIf (.keyword .else_ :: .keyword .if_ :: ts) arm

/-- `'else' block` -/
inductive IsElse : List Token → Block → Prop where
  | mk {ts body} (h : IsBlock ts body) : IsElse (.keyword .else_ :: ts) body

end

/-! ### Programs -/

/-- `IDENT ':' type` -/
inductive IsBinding : List Token → Binding → Prop where
  | mk {ts type} (x : String) (ht : IsType ts type) :
      IsBinding (.name x :: .sign .colon :: ts) ⟨x, type⟩

/-- `IDENT ':' type ';'` -/
inductive IsField : List Token → Binding → Prop where
  | mk {ts b} (h : IsBinding ts b) : IsField (ts ++ [.sign .semicolon]) b

/-- `'->' type` -/
inductive IsResult : List Token → String → Prop where
  | mk {ts type} (ht : IsType ts type) : IsResult (.sign .arrow :: ts) type

/-- `'fn' IDENT '(' params? ')' ('->' type)?`, the function without its body. -/
inductive IsHeader : List Token → FunctionDecl → Prop where
  | mk {ts us params result} (f : String) (hp : Listed IsBinding ts params)
      (hr : Maybe IsResult us result) :
      IsHeader (.keyword .fn :: .name f :: (parens ts ++ us)) { name := f, params, result }

inductive IsItem : List Token → Item → Prop where
  | external {ts decl} (h : IsHeader ts decl) :
      IsItem (.keyword .external :: (ts ++ [.sign .semicolon])) (.external decl)
  | struct {ts fields} (s : String) (h : Many IsField ts fields) :
      IsItem (.keyword .struct :: .name s :: braces ts) (.struct ⟨s, fields⟩)
  | function {ts us decl body} (h : IsHeader ts decl) (hb : IsBlock us body) :
      IsItem (ts ++ us) (.function { decl with body })

/-- `item*` -/
inductive IsProgram : List Token → Program → Prop where
  | mk {ts items} (h : Many IsItem ts items) : IsProgram ts ⟨items⟩

end GLang.Grammar
