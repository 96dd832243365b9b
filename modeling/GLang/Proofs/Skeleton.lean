import GLang.Proofs.Calls
import GLang.Proofs.Depth

/-!
# The skeleton of the code of a statement

What the code of a statement does, one thing after another, can be read off the statement: it
defines labels, it jumps, and it evaluates expressions. `Stmt.events` lists these events. It goes
over the syntax alone; types, scopes and sizes have no part in it. All that it keeps are the
counters for labels and the labels of the innermost loop, to which `break` and `continue` belong.

* `Spells d es code`: the code consists of the events `es` and of instructions that move values.
* `EmitsWith.spells`: the code of a phrase is spelled by its events, and so is that of a function:
  `FunctionDecl.spells_of_returns`. What code defines, jumps to, calls and pushes follows from this
  one statement.
-/

namespace GLang

open Asm Gen

/-! ### Events -/

/-- One thing that code does. -/
inductive Event where
  /-- A label or a jump. -/
  | line (l : Line)
  /-- An expression whose value is pushed. -/
  | value (e : Expr)
  /-- A call whose result is dropped. -/
  | run (f : String) (args : List Expr)

namespace Event

/-- A label is defined. -/
abbrev label (l : Label) : Event :=
  .line (.label l)

/-- Control goes to a label. -/
abbrev jump (l : Label) : Event :=
  .line (.instr (.jump l))

/-- The test of a loop, if it has one, which goes to `done` if it fails. -/
def test (done : Label) : Option Expr → List Event
  | none => []
  | some condition => [.value condition, .line (.instr (.jumpEqual done))]

end Event

namespace Stmt

mutual

/-- The events of a statement and the counters after it. `loop` are the labels of the innermost loop
around it. -/
def events (loop : Option LoopLabels) (n : LabelCounters) : Stmt → List Event × LabelCounters
  | .declare _ _ none | .step _ _ => ([], n)
  | .declare _ _ (some e) | .assign _ e | .store _ e => ([.value e], n)
  | .storeAt a e => ([.value a, .value e], n)
  | .branch first others otherwise =>
    let k := n.branch
    let last := Label.afterArms k otherwise
    let next := if others.isEmpty then last else .elseIf k 0
    let head := armEvents loop (n.bump .branch) k next first
    let arms := armsEvents loop head.2 k last 0 others
    let tail := elseEvents loop arms.2 k otherwise
    (head.1 ++ arms.1 ++ tail.1 ++ [.label (.ifEnd k)], tail.2)
  | .whileLoop condition body =>
    let k := n.whileLoop
    let code := blockEvents (some ⟨.whileHead k, .whileEnd k⟩) (n.bump .whileLoop) body
    ([.label (.whileHead k)] ++ Event.test (.whileDone k) (some condition) ++ code.1 ++
      [.jump (.whileHead k), .label (.whileDone k), .label (.whileEnd k)], code.2)
  | .forLoop init condition increment body =>
    let k := n.forLoop
    let labels : Option LoopLabels := some ⟨.forStep k, .forEnd k⟩
    let first := clauseEvents labels (n.bump .forLoop) init
    let code := blockEvents labels first.2 body
    let step := clauseEvents labels code.2 increment
    (first.1 ++ [.label (.forHead k)] ++ Event.test (.forDone k) condition ++ code.1 ++
      [.label (.forStep k)] ++ step.1 ++
      [.jump (.forHead k), .label (.forDone k), .label (.forEnd k)], step.2)
  | .breakLoop => ((loop.map fun l => Event.jump l.breakTo).toList, n)
  | .continueLoop => ((loop.map fun l => Event.jump l.continueTo).toList, n)
  | .ret none => ([.jump .returnPoint], n)
  | .ret (some e) => ([.value e, .jump .returnPoint], n)
  | .run (.call f args) => ([.run f args], n)
  | .run _ => ([], n)

def blockEvents (loop : Option LoopLabels) (n : LabelCounters) :
    List Stmt → List Event × LabelCounters
  | [] => ([], n)
  | s :: rest =>
    let first := s.events loop n
    let more := blockEvents loop first.2 rest
    (first.1 ++ more.1, more.2)

/-- The events of an arm of the `k`-th `if` statement; a condition that fails goes to `next`. -/
def armEvents (loop : Option LoopLabels) (n : LabelCounters) (k : Nat) (next : Label) :
    Arm → List Event × LabelCounters
  | .mk condition body =>
    let code := blockEvents loop n body
    ([.value condition, .line (.instr (.jumpZero next))] ++ code.1 ++ [.jump (.ifEnd k)], code.2)

def armsEvents (loop : Option LoopLabels) (n : LabelCounters) (k : Nat) (last : Label) :
    Nat → List Arm → List Event × LabelCounters
  | _, [] => ([], n)
  | i, arm :: rest =>
    let first := armEvents loop n k (if rest.isEmpty then last else .elseIf k (i + 1)) arm
    let more := armsEvents loop first.2 k last (i + 1) rest
    ([.label (.elseIf k i)] ++ first.1 ++ more.1, more.2)

def elseEvents (loop : Option LoopLabels) (n : LabelCounters) (k : Nat) :
    Option (List Stmt) → List Event × LabelCounters
  | none => ([], n)
  | some body =>
    let code := blockEvents loop n body
    ([.label (.otherwise k)] ++ code.1, code.2)

def clauseEvents (loop : Option LoopLabels) (n : LabelCounters) :
    Option Stmt → List Event × LabelCounters
  | none => ([], n)
  | some s => s.events loop n

end

end Stmt

/-- The events of a phrase and the counters after it. -/
def Phrase.events (loop : Option LoopLabels) (n : LabelCounters) :
    Phrase → List Event × LabelCounters
  | stmt s => s.events loop n
  | seq body => Stmt.blockEvents loop n body
  | arm k next a => Stmt.armEvents loop n k next a
  | arms k last i rest => Stmt.armsEvents loop n k last i rest
  | otherwise k body => Stmt.elseEvents loop n k body
  | clause s => Stmt.clauseEvents loop n s

/-- The events of a function whose body has the events `es`. -/
def FunctionDecl.frameEvents (name : String) (es : List Event) : List Event :=
  [.label (.named name)] ++ es ++ [.label .returnPoint]

/-! ### Code that is spelled by events -/

/-- Whether a line is a label or a jump. -/
def Asm.Line.isControl : Line → Bool
  | .label _ => true
  | line => line.jump?.isSome

/-- The code consists of these events, in this order, and of instructions that move values. The
expressions are compiled in a program with the declarations `d`. -/
inductive Spells (d : Declarations) : List Event → Code → Prop where
  | nil : Spells d [] []
  | line {l es code} (hl : l.isControl) (h : Spells d es code) :
      Spells d (.line l :: es) (l :: code)
  | moves {is es code} (hm : Moves is) (h : Spells d es code) :
      Spells d es (Code.ofInstrs is ++ code)
  | cleanup {m es code} (h : Spells d es code) : Spells d es (.cleanup m :: code)
  | value {ctx e instrs es code} (hd : ctx.toDeclarations = d) (he : e.lower ctx = .ok instrs)
      (h : Spells d es code) : Spells d (.value e :: es) (Code.ofInstrs instrs ++ code)
  | run {ctx f args instrs es code} (hd : ctx.toDeclarations = d)
      (hc : Expr.lowerCall ctx f args false = .ok instrs) (h : Spells d es code) :
      Spells d (.run f args :: es) (Code.ofInstrs instrs ++ code)

namespace Spells

variable {d : Declarations} {es es' : List Event} {code code' : Code}

theorem append (h : Spells d es code) (h' : Spells d es' code') :
    Spells d (es ++ es') (code ++ code') := by
  induction h with
  | nil => exact h'
  | line hl _ ih => exact .line hl ih
  | moves hm _ ih =>
    rw [List.append_assoc]
    exact .moves hm ih
  | cleanup _ ih => exact .cleanup ih
  | value hd he _ ih =>
    rw [List.append_assoc]
    exact .value hd he ih
  | run hd hc _ ih =>
    rw [List.append_assoc]
    exact .run hd hc ih

theorem label (l : Label) : Spells d [.label l] [.label l] :=
  .line rfl .nil

theorem jump (l : Label) : Spells d [.jump l] [.instr (.jump l)] :=
  .line rfl .nil

theorem of_moves {is : List Instr} (hm : Moves is) : Spells d [] (Code.ofInstrs is) := by
  have hmoves := Spells.moves (d := d) hm .nil
  rwa [List.append_nil] at hmoves

/-- Code that ends by moving values. -/
theorem appendMoves (h : Spells d es code) {is : List Instr} (hm : Moves is) :
    Spells d es (code ++ Code.ofInstrs is) := by
  have happend := h.append (of_moves hm)
  rwa [List.append_nil] at happend

theorem valueOf {ctx : Context} {e : Expr} {instrs : List Instr} (he : e.lower ctx = .ok instrs) :
    Spells ctx.toDeclarations [.value e] (Code.ofInstrs instrs) := by
  have hvalue := Spells.value rfl he .nil
  rwa [List.append_nil] at hvalue

/-- A value that is then moved. -/
theorem valueThen {ctx : Context} {e : Expr} {instrs moves : List Instr}
    (he : e.lower ctx = .ok instrs) (hmoves : Moves moves) :
    Spells ctx.toDeclarations [.value e] (Code.ofInstrs (instrs ++ moves)) := by
  rw [Code.ofInstrs_append]
  exact (valueOf he).appendMoves hmoves

theorem block (h : Spells d es code) (size : Nat) : Spells d es (Code.block size code) :=
  ((of_moves (moves_reserve size)).append h).appendMoves (moves_release size)

theorem loop (h : Spells d es code) (size : Nat) (done breakTo : Label) :
    Spells d (es ++ [.label done, .label breakTo]) (Code.loop size code done breakTo) := by
  have hcode := ((of_moves (moves_reserve size)).append h).append (label done)
  have hloop := (hcode.appendMoves (moves_release size)).append (label breakTo)
  simpa [Code.loop] using hloop

/-- A placeholder becomes an instruction that moves the stack pointer. -/
theorem resolve (h : Spells d es code) (σ : Nat → Nat) : Spells d es (code.resolve σ) := by
  induction h with
  | nil => exact .nil
  | @line l es code hl _ ih =>
    cases l with
    | label l => exact .line hl ih
    | instr i => exact .line hl ih
    | cleanup | verbatim => cases hl
  | moves hm _ ih =>
    rw [Code.resolve_append, Code.resolve_ofInstrs]
    exact .moves hm ih
  | cleanup _ ih => exact .moves (moves_release _) ih
  | value hd he _ ih =>
    rw [Code.resolve_append, Code.resolve_ofInstrs]
    exact .value hd he ih
  | run hd hc _ ih =>
    rw [Code.resolve_append, Code.resolve_ofInstrs]
    exact .run hd hc ih

end Spells

/-! ### Declarations along a generation -/

namespace Context

variable (ctx : Context)

@[simp] theorem toDeclarations_enter (kind : ScopeKind) :
    (ctx.enter kind).toDeclarations = ctx.toDeclarations := rfl

@[simp] theorem toDeclarations_past (s : Stmt) :
    (ctx.past s).toDeclarations = ctx.toDeclarations := by
  show (ctx.past s).leave.toDeclarations = ctx.leave.toDeclarations
  rw [leave_past]

@[simp] theorem toDeclarations_pastAll (body : List Stmt) :
    (ctx.pastAll body).toDeclarations = ctx.toDeclarations := by
  show (ctx.pastAll body).leave.toDeclarations = ctx.leave.toDeclarations
  rw [leave_pastAll]

@[simp] theorem toDeclarations_pastClause (clause : Option Stmt) :
    (ctx.pastClause clause).toDeclarations = ctx.toDeclarations := by
  show (ctx.pastClause clause).leave.toDeclarations = ctx.leave.toDeclarations
  rw [leave_pastClause]

theorem spells_loopTest {ctx : Context} {done : Label} {condition : Option Expr}
    {test : List Instr} (h : ctx.loopTest done condition = .ok test) :
    Spells ctx.toDeclarations (Event.test done condition) (Code.ofInstrs test) := by
  cases condition with
  | none =>
    cases h
    exact .nil
  | some condition =>
    obtain ⟨value, hv, h⟩ := except_bind_eq_ok.1 h
    cases h
    rw [Code.ofInstrs_append]
    exact (Spells.valueOf hv).append (.moves (.cons rfl (.cons rfl .nil)) (.line rfl .nil))

end Context

/-! ### The code of a phrase -/

theorem Exit.labels_within (exit : Option Exit) (size : Nat) :
    (exit.map (·.within size)).map Exit.labels = exit.map Exit.labels := by
  cases exit <;> rfl

/-- **The code of a phrase is spelled by its events.** -/
theorem EmitsWith.spells {total : List Nat → Nat} {σ : Nat → Nat} {result : Option Ty}
    {exit : Option Exit} {ctx : Context} {n n' : LabelCounters} {p : Phrase} {code : Code}
    (h : EmitsWith total σ result exit ctx n p code n') :
    ∃ es, p.events (exit.map Exit.labels) n = (es, n') ∧ Spells ctx.toDeclarations es code := by
  induction h with
  | declare ht hd => exact ⟨[], by simp only [Phrase.events, Stmt.events], .nil⟩
  | declareInit ht hv hd =>
    exact ⟨_, by simp only [Phrase.events, Stmt.events], .valueThen hv (Symbol.moves_storeCode _)⟩
  | assign hv hx =>
    exact ⟨_, by simp only [Phrase.events, Stmt.events], .valueThen hv (Symbol.moves_storeCode _)⟩
  | store hx ht hv =>
    exact ⟨_, by simp only [Phrase.events, Stmt.events],
      .valueThen hv (Symbol.moves_storeThrough _ _)⟩
  | storeAt ht ha hv =>
    refine ⟨_, by simp only [Phrase.events, Stmt.events]; rfl, ?_⟩
    rw [Code.ofInstrs_append, Code.ofInstrs_append, List.append_assoc, ← Code.ofInstrs_append]
    exact .value rfl ha (.valueThen hv (Ty.moves_storeIndirect _))
  | step hx hp =>
    exact ⟨[], by simp only [Phrase.events, Stmt.events], .of_moves (Symbol.moves_stepCode _ _)⟩
  | branch hfirst harms helse ih₁ ih₂ ih₃ =>
    obtain ⟨es₁, hn₁, hs₁⟩ := ih₁
    obtain ⟨es₂, hn₂, hs₂⟩ := ih₂
    obtain ⟨es₃, hn₃, hs₃⟩ := ih₃
    simp only [Phrase.events] at hn₁ hn₂ hn₃ ⊢
    refine ⟨_, by simp only [Stmt.events, hn₁, hn₂, hn₃]; rfl, ?_⟩
    exact ((hs₁.append hs₂).append hs₃).append (.label _)
  | @whileLoop exit ctx n n' condition body size test code hsize htest hbody ih =>
    obtain ⟨es, hn, hs⟩ := ih
    simp only [Phrase.events, Option.map_some] at hn ⊢
    refine ⟨_, by simp only [Stmt.events, hn]; rfl, ?_⟩
    have hround := (((Spells.label (.whileHead n.whileLoop)).append
      (Context.spells_loopTest htest)).append hs).append (.jump (.whileHead n.whileLoop))
    simpa using hround.loop size (.whileDone n.whileLoop) (.whileEnd n.whileLoop)
  | @forLoop exit ctx n n₁ n₂ n₃ init condition increment body size first test code step hsize hinit
      htest hbody hstep ih₁ ih₂ ih₃ =>
    obtain ⟨es₁, hn₁, hs₁⟩ := ih₁
    obtain ⟨es₂, hn₂, hs₂⟩ := ih₂
    obtain ⟨es₃, hn₃, hs₃⟩ := ih₃
    simp only [Phrase.events, Option.map_some] at hn₁ hn₂ hn₃ ⊢
    refine ⟨_, by simp only [Stmt.events, hn₁, hn₂, hn₃]; rfl, ?_⟩
    have htest := Context.spells_loopTest htest
    simp only [Context.toDeclarations_pastAll, Context.toDeclarations_pastClause,
      Context.toDeclarations_enter] at hs₁ hs₂ hs₃ htest
    have hround := (((((hs₁.append (.label (.forHead n.forLoop))).append htest).append hs₂).append
      (.label (.forStep n.forLoop))).append hs₃).append (.jump (.forHead n.forLoop))
    simpa using hround.loop size (.forDone n.forLoop) (.forEnd n.forLoop)
  | breakLoop hm =>
    exact ⟨_, by simp only [Phrase.events, Stmt.events, Option.map_some, Option.toList_some],
      .cleanup (.jump _)⟩
  | continueLoop hsizes =>
    exact ⟨_, by simp only [Phrase.events, Stmt.events, Option.map_some, Option.toList_some],
      .jump _⟩
  | ret => exact ⟨_, by simp only [Phrase.events, Stmt.events], .jump _⟩
  | retValue hv ht =>
    refine ⟨_, by simp only [Phrase.events, Stmt.events]; rfl, ?_⟩
    exact (Spells.valueThen hv (Context.moves_returnCode ht)).append (.jump _)
  | run hc =>
    refine ⟨_, by simp only [Phrase.events, Stmt.events]; rfl, ?_⟩
    have hrun := Spells.run rfl hc .nil
    rwa [List.append_nil] at hrun
  | seqNil => exact ⟨[], by simp only [Phrase.events, Stmt.blockEvents], .nil⟩
  | seqCons hs hrest ih₁ ih₂ =>
    obtain ⟨es₁, hn₁, hs₁⟩ := ih₁
    obtain ⟨es₂, hn₂, hs₂⟩ := ih₂
    simp only [Phrase.events] at hn₁ hn₂ ⊢
    rw [Context.toDeclarations_past] at hs₂
    exact ⟨_, by simp only [Stmt.blockEvents, hn₁, hn₂], hs₁.append hs₂⟩
  | @arm exit ctx n n' k next condition body size test code hsize htest hbody ih =>
    obtain ⟨es, hn, hs⟩ := ih
    rw [Exit.labels_within] at hn
    simp only [Phrase.events] at hn ⊢
    refine ⟨_, by simp only [Stmt.armEvents, hn]; rfl, ?_⟩
    have htest : Spells ctx.toDeclarations [.value condition, .line (.instr (.jumpZero next))]
        (Code.ofInstrs (test ++ [.pop .eax, .arith .test .eax (.imm 1), .jumpZero next])) := by
      rw [Code.ofInstrs_append]
      exact (Spells.valueOf htest).append 
        (.moves (.cons rfl (.cons rfl .nil)) (.line rfl .nil))
    exact (htest.append (hs.block _)).append (.jump _)
  | armsNil => exact ⟨[], by simp only [Phrase.events, Stmt.armsEvents], .nil⟩
  | armsCons ha hrest ih₁ ih₂ =>
    obtain ⟨es₁, hn₁, hs₁⟩ := ih₁
    obtain ⟨es₂, hn₂, hs₂⟩ := ih₂
    simp only [Phrase.events] at hn₁ hn₂ ⊢
    exact ⟨_, by simp only [Stmt.armsEvents, hn₁, hn₂],
      ((Spells.label _).append hs₁).append hs₂⟩
  | otherwiseNone => exact ⟨[], by simp only [Phrase.events, Stmt.elseEvents], .nil⟩
  | otherwiseSome hsize hbody ih =>
    obtain ⟨es, hn, hs⟩ := ih
    rw [Exit.labels_within] at hn
    simp only [Phrase.events] at hn ⊢
    exact ⟨_, by simp only [Stmt.elseEvents, hn], (Spells.label _).append (hs.block _)⟩
  | clauseNone => exact ⟨[], by simp only [Phrase.events, Stmt.clauseEvents], .nil⟩
  | clauseSome hs ih =>
    obtain ⟨es, hn, hs⟩ := ih
    simp only [Phrase.events] at hn ⊢
    exact ⟨es, by simp only [Stmt.clauseEvents, hn], hs⟩

/-! ### The code of a function -/

theorem FunctionSignature.toDeclarations_entry {signature : FunctionSignature} {d : Declarations}
    {ctx : Context} (h : signature.entry d = .ok ctx) : ctx.toDeclarations = d := by
  obtain ⟨scopes, -, h⟩ := except_bind_eq_ok.1 h
  cases h
  rfl

namespace FunctionDecl

theorem spells_frameCode {d : Declarations} {es : List Event} {body : Code} (h : Spells d es body)
    (name : String) (frame : Nat) :
    Spells d (frameEvents name es) (frameCode name frame body) := by
  have hstart : Moves ([.pushReg .ebp, .move .ebp .esp] ++ reserve frame) :=
    .append (.of_isMove (by simp)) (moves_reserve frame)
  have hend : Moves [.move .esp .ebp, .pop .ebp, .ret] := .of_isMove (by simp)
  exact ((((Spells.label _).appendMoves hstart).append h).append (.label _)).appendMoves hend

/-- **The code of a function is spelled by its events.** -/
theorem spells_of_returns {g g' : Generator} {decl : FunctionDecl} {code : Code}
    (hw : decl.wellFormed) (h : Returns decl.lower g code g') :
    ∃ es, Stmt.blockEvents none g.context.labels decl.body = (es, g'.context.labels) ∧
      Spells g.context.toDeclarations (frameEvents decl.name es) code := by
  obtain ⟨signature, ctx, raw, σ, -, -, hentry, rfl, hemits, -, -⟩ := emits_of_returns hw h
  obtain ⟨es, hn, hs⟩ := hemits.spells
  rw [FunctionSignature.toDeclarations_entry hentry] at hs
  exact ⟨es, hn, spells_frameCode (hs.resolve σ) _ _⟩

end FunctionDecl

end GLang
