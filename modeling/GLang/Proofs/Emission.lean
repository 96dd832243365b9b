import GLang.Proofs.Bare
import GLang.Proofs.Placeholder

/-!
# What statements compile to

`Emits σ result exit ctx n p code n'` says that `code` is the code of the phrase `p`: a statement or
a part of one. It is emitted in the context `ctx`, inside a loop that is left by `exit`, in a
function with result type `result`; its labels are numbered from `n` on, and `n'` comes after them.

The relation knows the final size of every block. A `break` is a placeholder `m` and a jump, and
`σ m`, the bytes that the placeholder drops, is what all blocks out to the loop reserve, the loop
included. A `continue` is a jump alone, out of blocks that reserve nothing. The code has its
placeholders still in it; `Code.resolve σ` fills them.

Sizes are added up in a word: `Emits` is `EmitsWith wordSum`. Where nested blocks reserve less than
`2 ^ 32` bytes together, `Stmt.peak`, no sum wraps around, and the code is that of
`EmitsWith List.sum`: `EmitsWith.exact`.

The generator does not know these sizes when it meets a `break`. That what it makes in the end is
described by this relation is shown in `GLang.Proofs.Generated`.
-/

namespace GLang

open Asm

/-- A statement, or a part of one that is compiled by itself. -/
inductive Phrase where
  | stmt (s : Stmt)
  | seq (body : List Stmt)
  /-- An arm of the `n`-th `if` statement; a condition that fails goes to `next`. -/
  | arm (n : Nat) (next : Label) (a : Arm)
  /-- The `else if` arms from the `i`-th on; if all fail, it goes to `last`. -/
  | arms (n : Nat) (last : Label) (i : Nat) (rest : List Arm)
  /-- The `else` block. -/
  | otherwise (n : Nat) (body : Option (List Stmt))
  /-- The first or the last clause of a `for` loop. -/
  | clause (s : Option Stmt)

namespace Phrase

/-- The context after a phrase. -/
def past (ctx : Context) : Phrase → Context
  | stmt s => ctx.past s
  | seq body => ctx.pastAll body
  | clause s => ctx.pastClause s
  | arm _ _ _ | arms _ _ _ _ | otherwise _ _ => ctx

end Phrase

/-- How the innermost loop is left. -/
structure Exit where
  labels : LoopLabels
  /-- The bytes that each block out to the loop reserves, the innermost first and the loop last. -/
  blocks : List Nat
  deriving DecidableEq

/-- The exit as seen from a block of `size` bytes. -/
def Exit.within (e : Exit) (size : Nat) : Exit :=
  { e with blocks := size :: e.blocks }

/-- Takes the result of a function off the stack. -/
def Context.returnCode (ctx : Context) : Option Ty → Except LoweringError (List Instr)
  | none => .ok [.pop .eax]
  | some t =>
    if t.isPrimitive then .ok [.pop .eax]
    else do
      let slot := (← ctx.lookup resultSlot).address
      return [.load .eax slot] ++ popCopy t.alignedSize 0 ++ [.load .eax slot]

/-- The test at the head of a loop. -/
def Context.loopTest (ctx : Context) (done : Label) :
    Option Expr → Except LoweringError (List Instr)
  | none => .ok []
  | some condition => do
    let test ← condition.lower ctx
    return test ++ [.pop .eax, .arith .cmp .eax (.imm 0), .jumpEqual done]

/-- Code in a block of `size` bytes. -/
def Asm.Code.block (size : Nat) (code : Code) : Code :=
  Code.ofInstrs (reserve size) ++ code ++ Code.ofInstrs (release size)

/-- Code in a loop of `size` bytes, which ends at `done`, and at `breakTo` if it is left before. -/
def Asm.Code.loop (size : Nat) (code : Code) (done breakTo : Label) : Code :=
  Code.ofInstrs (reserve size) ++ code ++ [.label done] ++ Code.ofInstrs (release size) ++
    [.label breakTo]

/-- Where the last condition of the `n`-th `if` statement goes when it fails. -/
def Asm.Label.afterArms (n : Nat) (otherwise : Option (List Stmt)) : Label :=
  if otherwise.isSome then .otherwise n else .ifEnd n

/-- `code` is the code of a phrase, and `total` adds up the sizes of the blocks that a jump
leaves. -/
inductive EmitsWith (total : List Nat → Nat) (σ : Nat → Nat) (result : Option Ty) :
    Option Exit → Context → LabelCounters → Phrase → Code → LabelCounters → Prop where
  | declare {exit ctx n x type t symbol scopes} (ht : ctx.typeOf type = .ok t)
      (hd : ctx.scopes.declare x t = .ok (symbol, scopes)) :
      EmitsWith total σ result exit ctx n (.stmt (.declare x type none)) [] n
  | declareInit {exit ctx n x type t init value symbol scopes} (ht : ctx.typeOf type = .ok t)
      (hv : init.lower ctx = .ok value) (hd : ctx.scopes.declare x t = .ok (symbol, scopes)) :
      EmitsWith total σ result exit ctx n (.stmt (.declare x type (some init)))
        (Code.ofInstrs (value ++ symbol.storeCode)) n
  | assign {exit ctx n x e value symbol} (hv : e.lower ctx = .ok value)
      (hx : ctx.lookup x = .ok symbol) :
      EmitsWith total σ result exit ctx n (.stmt (.assign x e))
        (Code.ofInstrs (value ++ symbol.storeCode)) n
  | store {exit ctx n x e t value symbol} (hx : ctx.lookup x = .ok symbol)
      (ht : symbol.type.pointee? = some t) (hv : e.lower ctx = .ok value) :
      EmitsWith total σ result exit ctx n (.stmt (.store x e))
        (Code.ofInstrs (value ++ symbol.storeThrough t)) n
  | storeAt {exit ctx n a e t target value} (ht : a.readType ctx = .ok t)
      (ha : a.lower ctx = .ok target) (hv : e.lower ctx = .ok value) :
      EmitsWith total σ result exit ctx n (.stmt (.storeAt a e))
        (Code.ofInstrs (target ++ value ++ t.storeIndirect)) n
  | step {exit ctx n op x symbol} (hx : ctx.lookup x = .ok symbol) (hp : symbol.type.isPrimitive) :
      EmitsWith total σ result exit ctx n (.stmt (.step op x))
        (Code.ofInstrs (symbol.stepCode op)) n
  | branch {exit ctx n n₁ n₂ n₃ first others otherwise head arms tail}
      (hfirst : EmitsWith total σ result exit ctx (n.bump .branch)
        (.arm n.branch
          (if others.isEmpty then .afterArms n.branch otherwise else .elseIf n.branch 0) first)
        head n₁)
      (harms : EmitsWith total σ result exit ctx n₁
        (.arms n.branch (.afterArms n.branch otherwise) 0 others) arms n₂)
      (helse : EmitsWith total σ result exit ctx n₂ (.otherwise n.branch otherwise) tail n₃) :
      EmitsWith total σ result exit ctx n (.stmt (.branch first others otherwise))
        (head ++ arms ++ tail ++ [.label (.ifEnd n.branch)]) n₃
  | whileLoop {exit ctx n n' condition body size test code}
      (hsize : ((ctx.enter .whileLoop).pastAll body).frameSize = size)
      (htest : (ctx.enter .whileLoop).loopTest (.whileDone n.whileLoop) (some condition) = .ok test)
      (hbody : EmitsWith total σ result
        (some ⟨⟨.whileHead n.whileLoop, .whileEnd n.whileLoop⟩, [size]⟩)
        (ctx.enter .whileLoop) (n.bump .whileLoop) (.seq body) code n') :
      EmitsWith total σ result exit ctx n (.stmt (.whileLoop condition body))
        (Code.loop size
          ([.label (.whileHead n.whileLoop)] ++ Code.ofInstrs test ++ code ++
            [.instr (.jump (.whileHead n.whileLoop))])
          (.whileDone n.whileLoop) (.whileEnd n.whileLoop)) n'
  | forLoop {exit ctx n n₁ n₂ n₃ init condition increment body size first test code step}
      (hsize :
        ((((ctx.enter .forLoop).pastClause init).pastAll body).pastClause increment).frameSize =
          size)
      (hinit : EmitsWith total σ result
        (some ⟨⟨.forStep n.forLoop, .forEnd n.forLoop⟩, [size]⟩)
        (ctx.enter .forLoop) (n.bump .forLoop) (.clause init) first n₁)
      (htest : ((ctx.enter .forLoop).pastClause init).loopTest (.forDone n.forLoop) condition
        = .ok test)
      (hbody : EmitsWith total σ result
        (some ⟨⟨.forStep n.forLoop, .forEnd n.forLoop⟩, [size]⟩)
        ((ctx.enter .forLoop).pastClause init) n₁ (.seq body) code n₂)
      (hstep : EmitsWith total σ result
        (some ⟨⟨.forStep n.forLoop, .forEnd n.forLoop⟩, [size]⟩)
        (((ctx.enter .forLoop).pastClause init).pastAll body) n₂ (.clause increment) step n₃) :
      EmitsWith total σ result exit ctx n (.stmt (.forLoop init condition increment body))
        (Code.loop size
          (first ++ [.label (.forHead n.forLoop)] ++ Code.ofInstrs test ++ code ++
            [.label (.forStep n.forLoop)] ++ step ++ [.instr (.jump (.forHead n.forLoop))])
          (.forDone n.forLoop) (.forEnd n.forLoop)) n₃
  /-- The placeholder drops what all blocks out to the loop reserve. -/
  | breakLoop {e ctx n m} (hm : σ m = total e.blocks) :
      EmitsWith total σ result (some e) ctx n (.stmt .breakLoop)
        [.cleanup m, .instr (.jump e.labels.breakTo)] n
  /-- The blocks inside the loop reserve nothing. -/
  | continueLoop {e ctx n} (h : total e.blocks.dropLast = 0) :
      EmitsWith total σ result (some e) ctx n (.stmt .continueLoop)
        [.instr (.jump e.labels.continueTo)] n
  | ret {exit ctx n} :
      EmitsWith total σ result exit ctx n (.stmt (.ret none)) [.instr (.jump .returnPoint)] n
  | retValue {exit ctx n e value take} (hv : e.lower ctx = .ok value)
      (ht : ctx.returnCode result = .ok take) :
      EmitsWith total σ result exit ctx n (.stmt (.ret (some e)))
        (Code.ofInstrs (value ++ take) ++ [.instr (.jump .returnPoint)]) n
  | run {exit ctx n f args code} (hc : Expr.lowerCall ctx f args false = .ok code) :
      EmitsWith total σ result exit ctx n (.stmt (.run (.call f args))) (Code.ofInstrs code) n
  | seqNil {exit ctx n} : EmitsWith total σ result exit ctx n (.seq []) [] n
  | seqCons {exit ctx n n₁ n₂ s rest code more}
      (hs : EmitsWith total σ result exit ctx n (.stmt s) code n₁)
      (hrest : EmitsWith total σ result exit (ctx.past s) n₁ (.seq rest) more n₂) :
      EmitsWith total σ result exit ctx n (.seq (s :: rest)) (code ++ more) n₂
  | arm {exit ctx n n' k next condition body size test code}
      (hsize : ((ctx.enter .branch).pastAll body).frameSize = size)
      (htest : condition.lower ctx = .ok test)
      (hbody : EmitsWith total σ result (exit.map (·.within size)) (ctx.enter .branch) n
        (.seq body) code n') :
      EmitsWith total σ result exit ctx n (.arm k next (.mk condition body))
        (Code.ofInstrs (test ++ [.pop .eax, .arith .test .eax (.imm 1), .jumpZero next]) ++
          Code.block size code ++ [.instr (.jump (.ifEnd k))]) n'
  | armsNil {exit ctx n k last i} : EmitsWith total σ result exit ctx n (.arms k last i []) [] n
  | armsCons {exit ctx n n₁ n₂ k last i a rest code more}
      (ha : EmitsWith total σ result exit ctx n
        (.arm k (if rest.isEmpty then last else .elseIf k (i + 1)) a) code n₁)
      (hrest : EmitsWith total σ result exit ctx n₁ (.arms k last (i + 1) rest) more n₂) :
      EmitsWith total σ result exit ctx n (.arms k last i (a :: rest))
        ([.label (.elseIf k i)] ++ code ++ more) n₂
  | otherwiseNone {exit ctx n k} : EmitsWith total σ result exit ctx n (.otherwise k none) [] n
  | otherwiseSome {exit ctx n n' k body size code}
      (hsize : ((ctx.enter .branch).pastAll body).frameSize = size)
      (hbody : EmitsWith total σ result (exit.map (·.within size)) (ctx.enter .branch) n
        (.seq body) code n') :
      EmitsWith total σ result exit ctx n (.otherwise k (some body))
        ([.label (.otherwise k)] ++ Code.block size code) n'
  | clauseNone {exit ctx n} : EmitsWith total σ result exit ctx n (.clause none) [] n
  | clauseSome {exit ctx n n' s code}
      (hs : EmitsWith total σ result exit ctx n (.stmt s) code n') :
      EmitsWith total σ result exit ctx n (.clause (some s)) code n'

/-- Sizes added up in a word. -/
def wordSum (sizes : List Nat) : Nat :=
  sizes.sum % 2 ^ 32

/-- `code` is the code of a phrase. -/
abbrev Emits := EmitsWith wordSum

/-! ### Nested blocks -/

namespace Stmt

mutual

/-- The most bytes that nested blocks in a statement reserve together. -/
def peak (ctx : Context) : Stmt → Nat
  | .branch first others otherwise =>
    max (armPeak ctx first) (max (armsPeak ctx others) (elsePeak ctx otherwise))
  | .whileLoop _ body =>
    ((ctx.enter .whileLoop).pastAll body).frameSize + peakAll (ctx.enter .whileLoop) body
  | .forLoop init _ increment body =>
    ((((ctx.enter .forLoop).pastClause init).pastAll body).pastClause increment).frameSize +
      max (clausePeak (ctx.enter .forLoop) init)
        (max (peakAll ((ctx.enter .forLoop).pastClause init) body)
          (clausePeak (((ctx.enter .forLoop).pastClause init).pastAll body) increment))
  | _ => 0

def peakAll (ctx : Context) : List Stmt → Nat
  | [] => 0
  | s :: rest => max (s.peak ctx) (peakAll (ctx.past s) rest)

def armPeak (ctx : Context) : Arm → Nat
  | .mk _ body => ((ctx.enter .branch).pastAll body).frameSize + peakAll (ctx.enter .branch) body

def armsPeak (ctx : Context) : List Arm → Nat
  | [] => 0
  | a :: rest => max (armPeak ctx a) (armsPeak ctx rest)

def elsePeak (ctx : Context) : Option (List Stmt) → Nat
  | none => 0
  | some body => ((ctx.enter .branch).pastAll body).frameSize + peakAll (ctx.enter .branch) body

def clausePeak (ctx : Context) : Option Stmt → Nat
  | none => 0
  | some s => s.peak ctx

end

end Stmt

def Phrase.peak (ctx : Context) : Phrase → Nat
  | stmt s => s.peak ctx
  | seq body => Stmt.peakAll ctx body
  | arm _ _ a => Stmt.armPeak ctx a
  | arms _ _ _ rest => Stmt.armsPeak ctx rest
  | otherwise _ body => Stmt.elsePeak ctx body
  | clause s => Stmt.clausePeak ctx s

/-- What the blocks out to the innermost loop reserve. -/
def Exit.reserved : Option Exit → Nat
  | none => 0
  | some e => e.blocks.sum

theorem Exit.reserved_within (exit : Option Exit) (size : Nat) :
    reserved (exit.map (·.within size)) ≤ size + reserved exit := by
  cases exit with
  | none => exact Nat.zero_le _
  | some e => simp [reserved, within]

/-- **No sum of sizes wraps around** where nested blocks reserve less than `2 ^ 32` bytes. -/
theorem EmitsWith.exact {σ : Nat → Nat} {result : Option Ty} {exit : Option Exit} {ctx : Context}
    {n n' : LabelCounters} {p : Phrase} {code : Code} (h : Emits σ result exit ctx n p code n') :
    Exit.reserved exit + p.peak ctx < 2 ^ 32 →
      EmitsWith List.sum σ result exit ctx n p code n' := by
  induction h with
  | declare ht hd => exact fun _ => .declare ht hd
  | declareInit ht hv hd => exact fun _ => .declareInit ht hv hd
  | assign hv hx => exact fun _ => .assign hv hx
  | store hx ht hv => exact fun _ => .store hx ht hv
  | storeAt ht ha hv => exact fun _ => .storeAt ht ha hv
  | step hx hp => exact fun _ => .step hx hp
  | branch hfirst harms helse ih₁ ih₂ ih₃ =>
    intro hlt
    simp only [Phrase.peak, Stmt.peak] at hlt ih₁ ih₂ ih₃
    exact .branch (ih₁ (by omega)) (ih₂ (by omega)) (ih₃ (by omega))
  | whileLoop hsize htest hbody ih =>
    intro hlt
    simp only [Phrase.peak, Stmt.peak, Exit.reserved, List.sum_singleton] at hlt ih
    exact .whileLoop hsize htest (ih (by omega))
  | forLoop hsize hinit htest hbody hstep ih₁ ih₂ ih₃ =>
    intro hlt
    simp only [Phrase.peak, Stmt.peak, Exit.reserved, List.sum_singleton] at hlt ih₁ ih₂ ih₃
    exact .forLoop hsize (ih₁ (by omega)) htest (ih₂ (by omega)) (ih₃ (by omega))
  | @breakLoop e ctx n m hm =>
    intro hlt
    have hsum : e.blocks.sum < 2 ^ 32 := Nat.lt_of_le_of_lt (Nat.le_add_right _ _) hlt
    exact .breakLoop (hm.trans (Nat.mod_eq_of_lt hsum))
  | @continueLoop e ctx n hzero =>
    intro hlt
    have hle : e.blocks.dropLast.sum ≤ e.blocks.sum :=
      (List.dropLast_sublist _).sum_le_sum (by simp)
    have hsum : e.blocks.sum < 2 ^ 32 := Nat.lt_of_le_of_lt (Nat.le_add_right _ _) hlt
    exact .continueLoop ((Nat.mod_eq_of_lt (Nat.lt_of_le_of_lt hle hsum)).symm.trans hzero)
  | ret => exact fun _ => .ret
  | retValue hv ht => exact fun _ => .retValue hv ht
  | run hc => exact fun _ => .run hc
  | seqNil => exact fun _ => .seqNil
  | seqCons hs hrest ih₁ ih₂ =>
    intro hlt
    simp only [Phrase.peak, Stmt.peakAll] at hlt ih₁ ih₂
    exact .seqCons (ih₁ (by omega)) (ih₂ (by omega))
  | @arm exit ctx n n' k next condition body size test code hsize htest hbody ih =>
    intro hlt
    have hwithin := Exit.reserved_within exit size
    simp only [Phrase.peak, Stmt.armPeak] at hlt ih
    exact .arm hsize htest (ih (by omega))
  | armsNil => exact fun _ => .armsNil
  | armsCons ha hrest ih₁ ih₂ =>
    intro hlt
    simp only [Phrase.peak, Stmt.armsPeak] at hlt ih₁ ih₂
    exact .armsCons (ih₁ (by omega)) (ih₂ (by omega))
  | otherwiseNone => exact fun _ => .otherwiseNone
  | @otherwiseSome exit ctx n n' k body size code hsize hbody ih =>
    intro hlt
    have hwithin := Exit.reserved_within exit size
    simp only [Phrase.peak, Stmt.elsePeak] at hlt ih
    exact .otherwiseSome hsize (ih (by omega))
  | clauseNone => exact fun _ => .clauseNone
  | clauseSome hs ih => exact fun hlt => .clauseSome (ih hlt)

end GLang
