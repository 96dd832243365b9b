import GLang.Proofs.Moves
import GLang.Proofs.Names
import GLang.Proofs.Parsed

/-!
# How the code of statements is composed

To compile a statement, the generator asks the context, declares a variable, counts a label,
compiles an expression, or opens a block or a loop, and puts lines of its own between what comes out
of this. `Gen.Composed` has a rule for each of these operations, and `Stmt.composed` says that there
are no others. It is the one recursion over statements: what all the operations keep, compiling a
statement keeps, by induction on `Gen.Composed`.

Two generations are composed side by side. In the second one the labels have other numbers, moved by
`δ`, and the casts have other targets, changed by `f`. A composition also tells what the statement
holds, in the order of the code: its descriptors and expressions, `Stmt.parts`; whether an exit in
it has no loop, `Stmt.strays`; and the variables that it adds to the block around it,
`Stmt.newNames`.
-/

namespace GLang

open Asm

/-! ### Other numbers in labels -/

namespace Asm

/-- A label with other numbers: `δ` is added to those of `if`, `while` and `for` statements. -/
def Label.renumber (δ : LabelCounters) : Label → Label
  | ifEnd n => ifEnd (n + δ.branch)
  | elseIf n i => elseIf (n + δ.branch) i
  | otherwise n => otherwise (n + δ.branch)
  | whileHead n => whileHead (n + δ.whileLoop)
  | whileDone n => whileDone (n + δ.whileLoop)
  | whileEnd n => whileEnd (n + δ.whileLoop)
  | forHead n => forHead (n + δ.forLoop)
  | forStep n => forStep (n + δ.forLoop)
  | forDone n => forDone (n + δ.forLoop)
  | forEnd n => forEnd (n + δ.forLoop)
  | returnPoint => returnPoint
  | literal k => literal k
  | named name => named name

def Instr.renumber (δ : LabelCounters) : Instr → Instr
  | pushLabel l => pushLabel (l.renumber δ)
  | jump l => jump (l.renumber δ)
  | jumpZero l => jumpZero (l.renumber δ)
  | jumpEqual l => jumpEqual (l.renumber δ)
  | i => i

def Line.renumber (δ : LabelCounters) : Line → Line
  | label l => label (l.renumber δ)
  | instr i => instr (i.renumber δ)
  | line => line

/-- Code with other numbers in its labels and jumps. -/
def Code.renumber (δ : LabelCounters) (code : Code) : Code :=
  code.map (Line.renumber δ)

theorem Instr.renumber_of_isMove (δ : LabelCounters) {i : Instr} (h : i.isMove) :
    i.renumber δ = i := by
  cases i with
  | pushLabel | jump | jumpZero | jumpEqual => cases h
  | _ => rfl

end Asm

theorem Moves.renumber {is : List Instr} (h : Moves is) (δ : LabelCounters) :
    (Code.ofInstrs is).renumber δ = Code.ofInstrs is := by
  have hline : ∀ i ∈ is, (Line.instr i).renumber δ = .instr i :=
    h.forall_mem (fun i hi => congrArg Line.instr (Instr.renumber_of_isMove δ hi)) rfl
  rw [Code.renumber, Code.ofInstrs, List.map_map]
  exact List.map_congr_left hline

def LoopLabels.renumber (δ : LabelCounters) (l : LoopLabels) : LoopLabels :=
  ⟨l.continueTo.renumber δ, l.breakTo.renumber δ⟩

/-! #### No other numbers -/

theorem LabelCounters.get_zero (kind : LabelKind) : LabelCounters.get {} kind = 0 := by
  cases kind <;> rfl

namespace Asm

theorem Label.renumber_zero (l : Label) : l.renumber {} = l := by
  cases l <;> rfl

theorem Instr.renumber_zero (i : Instr) : i.renumber {} = i := by
  cases i with
  | pushLabel l => exact congrArg pushLabel l.renumber_zero
  | jump l => exact congrArg jump l.renumber_zero
  | jumpZero l => exact congrArg jumpZero l.renumber_zero
  | jumpEqual l => exact congrArg jumpEqual l.renumber_zero
  | _ => rfl

theorem Line.renumber_zero (line : Line) : line.renumber {} = line := by
  cases line with
  | label l => exact congrArg label l.renumber_zero
  | instr i => exact congrArg instr i.renumber_zero
  | _ => rfl

theorem Code.renumber_zero (code : Code) : code.renumber {} = code :=
  (List.map_congr_left fun line _ => line.renumber_zero).trans (List.map_id code)

end Asm

theorem LoopLabels.renumber_zero (l : LoopLabels) : l.renumber {} = l :=
  congrArg₂ LoopLabels.mk l.continueTo.renumber_zero l.breakTo.renumber_zero

/-! ### Lines of its own -/

/-- Whether a line is one that the generator puts in by itself: it pushes no label, no comment is in
it, and it is no placeholder. -/
def Asm.Line.isOwn : Line → Bool
  | instr (.pushLabel _) | cleanup _ | verbatim _ => false
  | line => line.isPlain

def Asm.Code.isOwn (code : Code) : Bool :=
  code.all Line.isOwn

theorem Asm.Line.isPlain_of_isOwn {line : Line} (h : line.isOwn) : line.isPlain := by
  unfold isOwn at h
  split at h
  · cases h
  · cases h
  · cases h
  · exact h

theorem Asm.Code.isPlain_of_isOwn {code : Code} (h : code.isOwn) : code.isPlain :=
  List.all_eq_true.2 fun line hline => Line.isPlain_of_isOwn (List.all_eq_true.1 h line hline)

theorem Moves.isOwn {is : List Instr} (h : Moves is) : (Code.ofInstrs is).isOwn := by
  refine List.all_eq_true.2 (List.forall_mem_map.2 (h.forall_mem (fun i hi => ?_) rfl))
  cases i with
  | pushLabel | call | jump | jumpZero | jumpEqual => cases hi
  | _ => rfl

theorem Asm.Code.isOwn_label {l : Label} (h : l.isPlain) : isOwn [.label l] := by
  simpa [isOwn, Line.isOwn, Line.isPlain] using h

/-! ### Other targets of casts -/

namespace Expr

mutual

/-- The expression with other targets of its casts. -/
def recast (f : String → String) : Expr → Expr
  | .cast e target => .cast (e.recast f) (f target)
  | .deref e => .deref (e.recast f)
  | .negate e => .negate (e.recast f)
  | .step op order e => .step op order (e.recast f)
  | .binary op l r => .binary op (l.recast f) (r.recast f)
  | .call name args => .call name (recastArgs f args)
  | .int n => .int n
  | .str raw => .str raw
  | .var x => .var x
  | .addressOf x => .addressOf x

def recastArgs (f : String → String) : List Expr → List Expr
  | [] => []
  | e :: rest => e.recast f :: recastArgs f rest

end

mutual

theorem recast_id : ∀ e : Expr, e.recast id = e
  | .cast e target => congrArg (Expr.cast · target) (recast_id e)
  | .deref e => congrArg Expr.deref (recast_id e)
  | .negate e => congrArg Expr.negate (recast_id e)
  | .step op order e => congrArg (Expr.step op order) (recast_id e)
  | .binary op l r => congrArg₂ (Expr.binary op) (recast_id l) (recast_id r)
  | .call name args => congrArg (Expr.call name) (recastArgs_id args)
  | .int _ | .str _ | .var _ | .addressOf _ => rfl

theorem recastArgs_id : ∀ args : List Expr, recastArgs id args = args
  | [] => rfl
  | e :: rest => congrArg₂ List.cons (recast_id e) (recastArgs_id rest)

end

end Expr

namespace Stmt

mutual

/-- The statement with other targets of its casts. -/
def recast (f : String → String) : Stmt → Stmt
  | .declare x type init => .declare x type (init.map (Expr.recast f))
  | .assign x value => .assign x (value.recast f)
  | .store x value => .store x (value.recast f)
  | .storeAt address value => .storeAt (address.recast f) (value.recast f)
  | .step op x => .step op x
  | .branch first others otherwise =>
    .branch (recastArm f first) (recastArms f others) (recastElse f otherwise)
  | .whileLoop condition body => .whileLoop (condition.recast f) (recastAll f body)
  | .forLoop init condition increment body =>
    .forLoop (recastClause f init) (condition.map (Expr.recast f)) (recastClause f increment)
      (recastAll f body)
  | .breakLoop => .breakLoop
  | .continueLoop => .continueLoop
  | .ret value => .ret (value.map (Expr.recast f))
  | .run e => .run (e.recast f)

def recastAll (f : String → String) : List Stmt → List Stmt
  | [] => []
  | s :: rest => s.recast f :: recastAll f rest

def recastArm (f : String → String) : Arm → Arm
  | .mk condition body => .mk (condition.recast f) (recastAll f body)

def recastArms (f : String → String) : List Arm → List Arm
  | [] => []
  | arm :: rest => recastArm f arm :: recastArms f rest

def recastElse (f : String → String) : Option (List Stmt) → Option (List Stmt)
  | none => none
  | some body => some (recastAll f body)

def recastClause (f : String → String) : Option Stmt → Option Stmt
  | none => none
  | some s => some (s.recast f)

end

mutual

theorem recast_id : ∀ s : Stmt, s.recast id = s
  | .declare x type init => by cases init <;> simp [recast, Expr.recast_id]
  | .ret value => by cases value <;> simp [recast, Expr.recast_id]
  | .assign _ _ | .store _ _ | .storeAt _ _ | .run _ => by simp [recast, Expr.recast_id]
  | .step _ _ | .breakLoop | .continueLoop => rfl
  | .branch first others otherwise => by
    rw [recast, recastArm_id first, recastArms_id others, recastElse_id otherwise]
  | .whileLoop condition body => by rw [recast, Expr.recast_id, recastAll_id body]
  | .forLoop init condition increment body => by
    rw [recast, recastClause_id init, recastClause_id increment, recastAll_id body]
    cases condition <;> simp [Expr.recast_id]

theorem recastAll_id : ∀ body : List Stmt, recastAll id body = body
  | [] => rfl
  | s :: rest => congrArg₂ List.cons (recast_id s) (recastAll_id rest)

theorem recastArm_id : ∀ arm : Arm, recastArm id arm = arm
  | .mk condition body => congrArg₂ Arm.mk condition.recast_id (recastAll_id body)

theorem recastArms_id : ∀ arms : List Arm, recastArms id arms = arms
  | [] => rfl
  | arm :: rest => congrArg₂ List.cons (recastArm_id arm) (recastArms_id rest)

theorem recastElse_id : ∀ otherwise : Option (List Stmt), recastElse id otherwise = otherwise
  | none => rfl
  | some body => congrArg some (recastAll_id body)

theorem recastClause_id : ∀ clause : Option Stmt, recastClause id clause = clause
  | none => rfl
  | some s => congrArg some (recast_id s)

end

theorem isEmpty_recastArms (f : String → String) (arms : List Arm) :
    (recastArms f arms).isEmpty = arms.isEmpty := by
  cases arms <;> rfl

theorem isSome_recastElse (f : String → String) (otherwise : Option (List Stmt)) :
    (recastElse f otherwise).isSome = otherwise.isSome := by
  cases otherwise <;> rfl

/-! ### What statements hold -/

mutual

/-- Whether a statement holds a `break` or a `continue` with no loop around it in the statement. -/
def strays : Stmt → Bool
  | .breakLoop | .continueLoop => true
  | .branch first others otherwise =>
    armStrays first || armsStrays others || elseStrays otherwise
  | _ => false

def blockStrays : List Stmt → Bool
  | [] => false
  | s :: rest => s.strays || blockStrays rest

def armStrays : Arm → Bool
  | .mk _ body => blockStrays body

def armsStrays : List Arm → Bool
  | [] => false
  | arm :: rest => armStrays arm || armsStrays rest

def elseStrays : Option (List Stmt) → Bool
  | none => false
  | some body => blockStrays body

end

mutual

/-- The descriptors of the declarations in a statement, its expressions, and the variables that it
sets or steps. A store through an address reads its type like a dereference of it. -/
def parts : Stmt → List (String ⊕ Expr)
  | .declare _ type init => .inl type :: (init.map .inr).toList
  | .assign x value => [.inr value, .inr (.var x)]
  | .store x value => [.inr (.var x), .inr value]
  | .storeAt address value => [.inr (.deref address), .inr value]
  | .step _ x => [.inr (.var x)]
  | .branch first others otherwise => armParts first ++ armsParts others ++ elseParts otherwise
  | .whileLoop condition body => .inr condition :: blockParts body
  | .forLoop init condition increment body =>
    clauseParts init ++ (condition.map .inr).toList ++ blockParts body ++ clauseParts increment
  | .ret value => (value.map .inr).toList
  | .run e => [.inr e]
  | .breakLoop | .continueLoop => []

def blockParts : List Stmt → List (String ⊕ Expr)
  | [] => []
  | s :: rest => s.parts ++ blockParts rest

def armParts : Arm → List (String ⊕ Expr)
  | .mk condition body => .inr condition :: blockParts body

def armsParts : List Arm → List (String ⊕ Expr)
  | [] => []
  | arm :: rest => armParts arm ++ armsParts rest

def elseParts : Option (List Stmt) → List (String ⊕ Expr)
  | none => []
  | some body => blockParts body

def clauseParts : Option Stmt → List (String ⊕ Expr)
  | none => []
  | some s => s.parts

end

/-- The variables and the string literals of the expressions in `parts` are among the given ones,
and the expressions are well-formed if `wellFormed` says so. -/
def Covers (names strings : List String) (wellFormed : Bool) (parts : List (String ⊕ Expr)) :
    Prop :=
  ∀ e, .inr e ∈ parts → e.names ⊆ names ∧ e.strings ⊆ strings ∧ (wellFormed → e.wellFormed)

namespace Covers

variable {names names' strings strings' : List String} {wellFormed wellFormed' : Bool}
  {parts parts' : List (String ⊕ Expr)}

theorem nil : Covers names strings wellFormed [] := by
  simp [Covers]

theorem type (h : Covers names strings wellFormed parts) (descriptor : String) :
    Covers names strings wellFormed (.inl descriptor :: parts) := by
  simpa [Covers] using h

theorem expr (e : Expr) : Covers e.names e.strings e.wellFormed [.inr e] := by
  simp [Covers]

theorem mono (h : Covers names strings wellFormed parts) (hnames : names ⊆ names')
    (hstrings : strings ⊆ strings') (hw : wellFormed' → wellFormed) :
    Covers names' strings' wellFormed' parts := by
  intro e he
  obtain ⟨hn, hs, he⟩ := h e he
  exact ⟨List.Subset.trans hn hnames, List.Subset.trans hs hstrings, fun hw' => he (hw hw')⟩

theorem append (h : Covers names strings wellFormed parts)
    (h' : Covers names' strings' wellFormed' parts') :
    Covers (names ++ names') (strings ++ strings') (wellFormed && wellFormed')
      (parts ++ parts') := by
  intro e he
  rcases List.mem_append.1 he with he | he
  · exact h.mono (List.subset_append_left _ _) (List.subset_append_left _ _)
      (fun hw => (Bool.and_eq_true_iff.1 hw).1) e he
  · exact h'.mono (List.subset_append_right _ _) (List.subset_append_right _ _)
      (fun hw => (Bool.and_eq_true_iff.1 hw).2) e he

theorem option (e : Option Expr) :
    Covers (e.elim [] Expr.names) ((e.map Expr.strings).getD []) (e.all Expr.wellFormed)
      (e.map .inr).toList := by
  cases e with
  | none => exact nil
  | some e => exact expr e

end Covers

mutual

/-- **What the parts of a statement hold, the statement holds.** -/
theorem covers_parts : ∀ s : Stmt, Covers s.mentions s.strings s.wellFormed s.parts
  | .declare _ type init => (Covers.option init).type type
  | .assign x value =>
    ((Covers.expr value).append (.expr (.var x))).mono (by simp [mentions, names, Expr.names])
      (by simp [strings, Expr.strings]) (by simp [wellFormed, Expr.wellFormed])
  | .store x value => (Covers.expr (.var x)).append (.expr value)
  | .storeAt address value => (Covers.expr (.deref address)).append (.expr value)
  | .step _ x => .expr (.var x)
  | .branch first others otherwise =>
    ((covers_armParts first).append (covers_armsParts others)).append (covers_elseParts otherwise)
  | .whileLoop condition body => (Covers.expr condition).append (covers_blockParts body)
  | .forLoop init condition increment body => by
    refine ((((covers_clauseParts init).append (.option condition)).append
      (covers_blockParts body)).append (covers_clauseParts increment)).mono ?_ ?_ ?_
    · intro x
      simp only [mentions, List.mem_append]
      tauto
    · intro raw
      simp only [strings, List.mem_append]
      tauto
    · simp only [wellFormed, Bool.and_eq_true]
      tauto
  | .ret value => .option value
  | .run e => .expr e
  | .breakLoop | .continueLoop => .nil

theorem covers_blockParts : ∀ body : List Stmt,
    Covers (blockMentions body) (blockStrings body) (allWellFormed body) (blockParts body)
  | [] => .nil
  | s :: rest => (covers_parts s).append (covers_blockParts rest)

theorem covers_armParts : ∀ arm : Arm,
    Covers (armMentions arm) (armStrings arm) (armWellFormed arm) (armParts arm)
  | .mk condition body => (Covers.expr condition).append (covers_blockParts body)

theorem covers_armsParts : ∀ arms : List Arm,
    Covers (armsMentions arms) (armsStrings arms) (armsWellFormed arms) (armsParts arms)
  | [] => .nil
  | arm :: rest => (covers_armParts arm).append (covers_armsParts rest)

theorem covers_elseParts : ∀ otherwise : Option (List Stmt),
    Covers (elseMentions otherwise) (elseStrings otherwise) (elseWellFormed otherwise)
      (elseParts otherwise)
  | none => .nil
  | some body => covers_blockParts body

theorem covers_clauseParts : ∀ clause : Option Stmt,
    Covers (clauseMentions clause) (clauseStrings clause) (clauseWellFormed clause)
      (clauseParts clause)
  | none => .nil
  | some s => covers_parts s

end

end Stmt

/-! ### Compositions -/

namespace Gen

/-- The code of one part after that of another. -/
def seq (p q : Gen Code) : Gen Code := do
  let code ← p
  let code' ← q
  return code ++ code'

theorem returns_seq {p q : Gen Code} {g g' : Generator} {code : Code} :
    Returns (p.seq q) g code g' ↔
      ∃ a g₁ b, Returns p g a g₁ ∧ Returns q g₁ b g' ∧ code = a ++ b := by
  simp only [seq, returns_bind, returns_pure]
  constructor
  · rintro ⟨a, g₁, ha, b, g₂, hb, rfl, rfl⟩
    exact ⟨a, g₁, b, ha, hb, rfl⟩
  · rintro ⟨a, g₁, b, ha, hb, rfl⟩
    exact ⟨a, g₁, ha, b, g', hb, rfl, rfl⟩

/-- **What a generation of code is made of,** beside a second one with other numbers in its labels
and other targets of its casts. The lists tell what is compiled and which variables are new in the
innermost scope, the last one first; the Boolean tells of a stray exit. -/
inductive Composed (δ : LabelCounters) (f : String → String) :
    List (String ⊕ Expr) → Bool → List String → Gen Code → Gen Code → Prop
  | own {code code' : Code} (h : code.isOwn) (h' : code' = code.renumber δ) :
      Composed δ f [] false [] (pure code) (pure code')
  /-- An error that speaks of no symbol and of no scope. -/
  | fail {parts : List (String ⊕ Expr)} {e e' : LoweringError}
      (hsymbol : ∀ x, e ≠ .undefinedSymbol x) (hscope : ∀ fault, e ≠ .scope fault)
      (h : f = id → e' = e) :
      Composed δ f parts false [] (throw e) (throw e')
  | seq {parts parts' : List (String ⊕ Expr)} {stray stray' : Bool} {new new' : List String}
      {p q p' q' : Gen Code} (h : Composed δ f parts stray new p q)
      (h' : Composed δ f parts' stray' new' p' q') :
      Composed δ f (parts ++ parts') (stray || stray') (new' ++ new) (p.seq p') (q.seq q')
  | value (e : Expr) : Composed δ f [.inr e] false [] (evaluate e) (evaluate (e.recast f))
  | call (name : String) (args : List Expr) :
      Composed δ f [.inr (.call name args)] false [] (Stmt.run (.call name args)).lower
        (Stmt.run (.call name (Expr.recastArgs f args))).lower
  | type {parts : List (String ⊕ Expr)} {stray : Bool} {new : List String} {k k' : Ty → Gen Code}
      (descriptor : String) (h : ∀ t, Composed δ f parts stray new (k t) (k' t)) :
      Composed δ f (.inl descriptor :: parts) stray new
        (ask (·.typeOf descriptor) >>= k) (ask (·.typeOf descriptor) >>= k')
  | address {parts : List (String ⊕ Expr)} {stray : Bool} {new : List String}
      {k k' : Ty → Gen Code} (e : Expr) (h : ∀ t, Composed δ f parts stray new (k t) (k' t)) :
      Composed δ f (.inr (.deref e) :: parts) stray new
        (ask e.readType >>= fun t => (evaluate e).seq (k t))
        (ask (e.recast f).readType >>= fun t => (evaluate (e.recast f)).seq (k' t))
  | lookup {parts : List (String ⊕ Expr)} {stray : Bool} {new : List String}
      {k k' : Symbol → Gen Code} (x : String)
      (h : ∀ symbol, Composed δ f parts stray new (k symbol) (k' symbol)) :
      Composed δ f (.inr (.var x) :: parts) stray new (Gen.lookup x >>= k) (Gen.lookup x >>= k')
  | declare {parts : List (String ⊕ Expr)} {stray : Bool} {new : List String}
      {k k' : Symbol → Gen Code} (x : String) (t : Ty)
      (h : ∀ symbol, Composed δ f parts stray new (k symbol) (k' symbol)) :
      Composed δ f parts stray (new ++ [x]) (Gen.declare x t >>= k) (Gen.declare x t >>= k')
  | result : Composed δ f [] false [] (do return Code.ofInstrs (← Stmt.resultCode))
      (do return Code.ofInstrs (← Stmt.resultCode))
  | label {parts : List (String ⊕ Expr)} {stray : Bool} {new : List String} {k k' : Nat → Gen Code}
      (kind : LabelKind) (h : ∀ n, Composed δ f parts stray new (k n) (k' (n + δ.get kind))) :
      Composed δ f parts stray new (freshLabel kind >>= k) (freshLabel kind >>= k')
  | block {parts : List (String ⊕ Expr)} {stray : Bool} {new : List String} {p q : Gen Code}
      (h : Composed δ f parts stray new p q) : Composed δ f parts stray [] (block p) (block q)
  | loop {parts : List (String ⊕ Expr)} {stray : Bool} {new : List String} {p q : Gen Code}
      (kind : ScopeKind) (labels : LoopLabels) (done : Label) (hkind : kind.isLoop)
      (hcontinue : labels.continueTo.isPlain) (hbreak : labels.breakTo.isPlain)
      (hdone : done.isPlain) (h : Composed δ f parts stray new p q) :
      Composed δ f parts false [] (loop kind labels done p)
        (loop kind (labels.renumber δ) (done.renumber δ) q)
  | breakLoop : Composed δ f [] true [] Stmt.breakLoop.lower Stmt.breakLoop.lower
  | continueLoop : Composed δ f [] true [] Stmt.continueLoop.lower Stmt.continueLoop.lower

namespace Composed

variable {δ : LabelCounters} {f : String → String} {parts : List (String ⊕ Expr)} {stray : Bool}
  {new : List String} {p q : Gen Code}

theorem nothing : Composed δ f [] false [] (pure []) (pure []) :=
  own rfl rfl

theorem moves {is : List Instr} (h : Moves is) :
    Composed δ f [] false [] (pure (Code.ofInstrs is)) (pure (Code.ofInstrs is)) :=
  own h.isOwn (h.renumber δ).symm

theorem mark (l : Label) (h : l.isPlain) :
    Composed δ f [] false [] (pure [.label l]) (pure [.label (l.renumber δ)]) :=
  own (Code.isOwn_label h) rfl

theorem jump (l : Label) (h : l.isPlain) :
    Composed δ f [] false [] (pure [.instr (.jump l)]) (pure [.instr (.jump (l.renumber δ))]) :=
  own (by simpa [Code.isOwn, Line.isOwn, Line.isPlain, Instr.isPlain] using h) rfl

theorem loopCondition (condition : Expr) (done : Label) (h : done.isPlain) :
    Composed δ f [.inr condition] false [] (Gen.loopCondition condition done)
      (Gen.loopCondition (condition.recast f) (done.renumber δ)) := by
  have htest : Composed δ f [] false []
      (pure (Code.ofInstrs [.pop .eax, .arith .cmp .eax (.imm 0), .jumpEqual done]))
      (pure (Code.ofInstrs [.pop .eax, .arith .cmp .eax (.imm 0), .jumpEqual (done.renumber δ)])) :=
    own (by simpa [Code.isOwn, Code.ofInstrs, Line.isOwn, Line.isPlain, Instr.isPlain] using h) rfl
  simpa [Gen.loopCondition, Gen.seq] using (value condition).seq htest

end Composed

end Gen

/-! ### Statements -/

namespace Stmt

open Gen

variable {δ : LabelCounters} {f : String → String}

/-- Where a condition that fails goes. -/
theorem isPlain_next {last : Label} (hlast : last.isPlain) (n i : Nat) (arms : List Arm) :
    (if arms.isEmpty then last else Label.elseIf n i).isPlain := by
  split
  · exact hlast
  · rfl

theorem renumber_next (last : Label) (n i : Nat) (arms : List Arm) :
    (if arms.isEmpty then last else .elseIf n i).renumber δ =
      if arms.isEmpty then last.renumber δ else .elseIf (n + δ.branch) i := by
  split <;> rfl

mutual

/-- **How a statement is compiled.** -/
theorem composed : ∀ s : Stmt,
    Composed δ f s.parts s.strays s.newNames s.lower (s.recast f).lower
  | .declare x type none => by
    simp only [lower, recast, Option.map_none]
    exact .type type fun t => .declare x t fun _ => .nothing
  | .declare x type (some init) => by
    simpa [recast, parts, strays, newNames, Gen.seq] using Composed.type type fun t =>
      (Composed.value init).seq (.declare x t fun symbol => .moves symbol.moves_storeCode)
  | .assign x value => by
    simpa [recast, parts, strays, newNames, Gen.seq] using
      (Composed.value value).seq (.lookup x fun symbol => .moves symbol.moves_storeCode)
  | .store x value => by
    simp only [lower, recast]
    refine .lookup x fun symbol => ?_
    cases symbol.type.pointee? with
    | none => exact .fail (by simp) (by simp) fun _ => rfl
    | some t =>
      simpa [strays, newNames, Gen.seq] using
        (Composed.value value).seq (.moves (symbol.moves_storeThrough t))
  | .storeAt address value => by
    simpa [recast, parts, strays, newNames, Gen.seq] using Composed.address address fun t : Ty =>
      (Composed.value value).seq (.moves t.moves_storeIndirect)
  | .step op x => by
    simp only [lower, recast]
    refine .lookup x fun symbol => ?_
    split
    · exact .moves (symbol.moves_stepCode op)
    · exact .fail (by simp) (by simp) fun _ => rfl
  | .branch first others otherwise => by
    simp only [lower, recast, isEmpty_recastArms, isSome_recastElse]
    refine .label .branch fun n => ?_
    have hlast : (if otherwise.isSome then Label.otherwise n else .ifEnd n).isPlain := by
      split <;> rfl
    have h := (composed_lowerArm n (isPlain_next hlast n 0 others) first).seq
      ((composed_lowerArms n hlast 0 others).seq ((composed_lowerElse n otherwise).seq
        (.mark (.ifEnd n) rfl)))
    have hlabel : (if otherwise.isSome then Label.otherwise n else .ifEnd n).renumber δ =
        if otherwise.isSome then Label.otherwise (n + δ.branch) else .ifEnd (n + δ.branch) := by
      split <;> rfl
    rw [renumber_next, hlabel] at h
    simpa [parts, strays, newNames, Gen.seq, Label.renumber, LabelCounters.get,
      Bool.or_assoc] using h
  | .whileLoop condition body => by
    simp only [lower, recast]
    refine .label .whileLoop fun n => ?_
    have h := (Composed.mark (.whileHead n) rfl).seq
      ((Composed.loopCondition condition (.whileDone n) rfl).seq
        ((composed_lowerAll body).seq (.jump (.whileHead n) rfl)))
    simpa [parts, strays, newNames, Gen.seq, Label.renumber, LoopLabels.renumber,
      LabelCounters.get] using
        h.loop .whileLoop ⟨.whileHead n, .whileEnd n⟩ (.whileDone n) rfl rfl rfl rfl
  | .forLoop init condition increment body => by
    simp only [lower, recast]
    refine .label .forLoop fun n => ?_
    have h : ∀ {parts : List (String ⊕ Expr)} {test test' : Gen Code},
        Composed δ f parts false [] test test' → Composed δ f _ _ _ _ _ := fun htest =>
      ((composed_lowerClause init).seq ((Composed.mark (.forHead n) rfl).seq
        (htest.seq ((composed_lowerAll body).seq ((Composed.mark (.forStep n) rfl).seq
          ((composed_lowerClause increment).seq (.jump (.forHead n) rfl))))))).loop
            .forLoop ⟨.forStep n, .forEnd n⟩ (.forDone n) rfl rfl rfl rfl
    cases condition with
    | none =>
      simpa [parts, strays, newNames, Gen.seq, Label.renumber, LoopLabels.renumber,
        LabelCounters.get] using h .nothing
    | some condition =>
      simpa [parts, strays, newNames, Gen.seq, Label.renumber, LoopLabels.renumber,
        LabelCounters.get] using h (.loopCondition condition (.forDone n) rfl)
  | .breakLoop => .breakLoop
  | .continueLoop => .continueLoop
  | .ret none => by
    simp only [lower, recast, Option.map_none]
    exact .own rfl rfl
  | .ret (some value) => by
    simpa [recast, parts, strays, newNames, Gen.seq, Label.renumber] using
      (Composed.value value).seq (Composed.result.seq (.jump (.returnPoint) rfl))
  | .run e => by
    cases e with
    | call name args => exact .call name args
    | _ =>
      simp only [lower, recast, Expr.recast]
      refine .fail (by simp) (by simp) fun h => ?_
      subst h
      simp [Expr.recast_id]

theorem composed_lowerAll : ∀ body : List Stmt,
    Composed δ f (blockParts body) (blockStrays body) (body.flatMap newNames).reverse
      (lowerAll body) (lowerAll (recastAll f body))
  | [] => by
    simp only [lowerAll, recastAll]
    exact .nothing
  | s :: rest => by
    have hone : s.newNames.reverse = s.newNames := by cases s <;> rfl
    simpa [recastAll, blockParts, blockStrays, Gen.seq, hone] using
      (composed s).seq (composed_lowerAll rest)

theorem composed_lowerArm (n : Nat) {next : Label} (hnext : next.isPlain) : ∀ arm : Arm,
    Composed δ f (armParts arm) (armStrays arm) [] (lowerArm n next arm)
      (lowerArm (n + δ.branch) (next.renumber δ) (recastArm f arm))
  | .mk condition body => by
    have htest : Composed δ f [] false []
        (pure (Code.ofInstrs [.pop .eax, .arith .test .eax (.imm 1), .jumpZero next]))
        (pure (Code.ofInstrs
          [.pop .eax, .arith .test .eax (.imm 1), .jumpZero (next.renumber δ)])) := by
      refine .own ?_ rfl
      simpa [Code.isOwn, Code.ofInstrs, Line.isOwn, Line.isPlain, Instr.isPlain] using hnext
    simpa [recastArm, armParts, armStrays, Gen.seq, Label.renumber] using
      (Composed.value condition).seq (htest.seq ((composed_lowerAll body).block.seq
        (.jump (.ifEnd n) rfl)))

theorem composed_lowerArms (n : Nat) {last : Label} (hlast : last.isPlain) :
    ∀ (i : Nat) (arms : List Arm),
    Composed δ f (armsParts arms) (armsStrays arms) [] (lowerArms n last i arms)
      (lowerArms (n + δ.branch) (last.renumber δ) i (recastArms f arms))
  | _, [] => by
    simp only [lowerArms, recastArms]
    exact .nothing
  | i, arm :: rest => by
    have h := (Composed.mark (.elseIf n i) rfl).seq
      ((composed_lowerArm n (isPlain_next hlast n (i + 1) rest) arm).seq
        (composed_lowerArms n hlast (i + 1) rest))
    rw [renumber_next] at h
    simpa [recastArms, isEmpty_recastArms, armsParts, armsStrays, Gen.seq, Label.renumber] using h

theorem composed_lowerElse (n : Nat) : ∀ otherwise : Option (List Stmt),
    Composed δ f (elseParts otherwise) (elseStrays otherwise) [] (lowerElse n otherwise)
      (lowerElse (n + δ.branch) (recastElse f otherwise))
  | none => by
    simp only [lowerElse, recastElse]
    exact .nothing
  | some body => by
    simpa [recastElse, elseParts, elseStrays, Gen.seq, Label.renumber] using
      (Composed.mark (.otherwise n) rfl).seq (composed_lowerAll body).block

/-- The clauses of a loop are compiled in its scope. -/
theorem composed_lowerClause : ∀ clause : Option Stmt,
    Composed δ f (clauseParts clause) (clause.elim false strays) (clause.elim [] newNames)
      (lowerClause clause) (lowerClause (recastClause f clause))
  | none => by
    simp only [lowerClause, recastClause]
    exact .nothing
  | some s => by
    simp only [lowerClause, recastClause]
    exact composed s

end

end Stmt

end GLang
