import GLang.Proofs.Emission
import GLang.Proofs.Lowered
import GLang.Proofs.Machine

/-!
# How far code moves the stack pointer

An operator takes four bytes off the stack for each operand, and a dereference takes four for the
address. An operand that is an aggregate may take more, or none at all. What is not taken stays
below the value, and `Expr.pushedSize` does not count it: `Expr.surplus` and
`Expr.effects_lower_surplus`.

So the code of an expression leaves as many bytes on the stack as `Expr.pushedSize` says if the
operands of its operators have the size that the operators take: `Expr.consistent` and
`Expr.effects_lower`. The same condition for statements, `Stmt.consistent`, also says that a value
has the size of the place that it is stored to.
-/

namespace GLang

open Asm

/-- The bytes by which instructions lower the stack pointer together. -/
def Asm.effects : List Instr → Option Int
  | [] => some 0
  | i :: rest => do return (← i.effect) + (← effects rest)

section Effects

variable {is js : List Instr} {i : Instr} {m n : Int}

theorem effects_cons (hi : i.effect = some m) (h : effects is = some n) :
    effects (i :: is) = some (m + n) := by
  rw [effects, hi, h]
  rfl

theorem effects_cons_eq_some :
    effects (i :: is) = some n ↔ ∃ k l, i.effect = some k ∧ effects is = some l ∧ k + l = n := by
  rw [effects]
  cases i.effect <;> cases effects is <;> simp

theorem effects_append (hi : effects is = some m) (hj : effects js = some n) :
    effects (is ++ js) = some (m + n) := by
  induction is generalizing m with
  | nil =>
    cases hi
    rw [List.nil_append, hj, Int.zero_add]
  | cons i is ih =>
    obtain ⟨k, l, hk, hl, rfl⟩ := effects_cons_eq_some.1 hi
    rw [List.cons_append, effects_cons hk (ih hl), Int.add_assoc]

/-- The effect of code that is followed by more, given up to equality of the sum. -/
theorem effects_append_of {k : Int} (hi : effects is = some m) (hj : effects js = some n)
    (hk : m + n = k) : effects (is ++ js) = some k :=
  hk ▸ effects_append hi hj

/-- Instructions move the stack pointer by their effect. -/
theorem esp_of_run {env : Environment} (henv : env.Restores) :
    ∀ {is : List Instr} {n : Int} {a b : Machine}, effects is = some n →
      Instr.run env is a = some b → b.esp = a.esp - .ofInt 32 n := by
  intro is
  induction is with
  | nil =>
    intro n a b h hrun
    cases h
    cases hrun
    exact (sub_ofInt_zero _).symm
  | cons i is ih =>
    intro n a b h hrun
    obtain ⟨k, l, hk, hl, rfl⟩ := effects_cons_eq_some.1 h
    obtain ⟨c, hc, hrun⟩ := Option.bind_eq_some_iff.1 hrun
    rw [ih hl hrun, (Instr.exec_effect henv hk hc).1, BitVec.ofInt_add, BitVec.sub_sub]

/-- The same for instructions that push `n` bytes. -/
theorem esp_of_run_natCast {env : Environment} (henv : env.Restores) {n : Nat} {a b : Machine}
    (h : effects is = some (n : Int)) (hrun : Instr.run env is a = some b) :
    b.esp = a.esp - .ofNat 32 n := by
  rw [esp_of_run henv h hrun, BitVec.ofInt_natCast]

end Effects

/-! ### Fixed sequences -/

theorem effects_reserve (size : Nat) : effects (reserve size) = some (size : Int) := by
  unfold reserve
  split
  · simp [effects, Instr.effect]
  · rw [show size = 0 by omega]
    rfl

theorem effects_release (size : Nat) : effects (release size) = some (-size : Int) := by
  unfold release
  split
  · simp [effects, Instr.effect]
  · rw [show size = 0 by omega]
    rfl

theorem effects_pushCopy (size : Nat) : effects (pushCopy size) = some (size : Int) := by
  simp [pushCopy, effects, Instr.effect, Reg.isFrame]

theorem effects_popCopy (size extra : Nat) :
    effects (popCopy size extra) = some (-(size + extra : Nat) : Int) := by
  simp [popCopy, effects, Instr.effect, Reg.isFrame]
  omega

theorem effects_pushValue (t : Ty) (a : Address) : effects (pushValue t a) = some 4 := by
  unfold pushValue
  split <;> simp [effects, Instr.effect]

theorem effects_pushIndirect (t : Ty) : effects (pushIndirect t) = some (t.stackSize : Int) := by
  unfold pushIndirect Ty.stackSize
  split
  · exact effects_pushValue t _
  · exact effects_pushCopy _

theorem BinOp.effects_code (op : BinOp) : effects op.code = some (-4) := by
  cases op <;> simp [code, combine, effects, Instr.effect, Reg.isFrame]

namespace Symbol

theorem effects_pushCode (s : Symbol) : effects s.pushCode = some (s.type.stackSize : Int) := by
  unfold pushCode Ty.stackSize
  split
  · exact effects_pushValue _ _
  · rw [effects_cons (m := 0) rfl (effects_pushCopy _), Int.zero_add]

theorem effects_stepCode (s : Symbol) (op : StepOp) : effects (s.stepCode op) = some 0 := by
  cases op <;> rfl

theorem effects_storeCode (s : Symbol) : effects s.storeCode = some (-s.type.stackSize : Int) := by
  unfold storeCode Ty.stackSize
  split
  · rfl
  · rw [effects_cons (m := 0) rfl (effects_popCopy _ _), Int.zero_add, Nat.add_zero]

theorem effect_loadTarget (s : Symbol) {r : Reg} (hr : r.isFrame = false) :
    (s.loadTarget r).effect = some 0 := by
  unfold loadTarget
  split <;> simp [Instr.effect, hr]

theorem effects_storeThrough (s : Symbol) (t : Ty) :
    effects (s.storeThrough t) = some (-t.stackSize : Int) := by
  unfold storeThrough Ty.stackSize
  split
  · rw [effects_cons (m := -4) rfl (effects_cons (s.effect_loadTarget rfl)
      (effects_cons (m := 0) rfl (show effects [] = some 0 from rfl)))]
    rfl
  · rw [effects_cons (s.effect_loadTarget rfl) (effects_popCopy _ _), Int.zero_add, Nat.add_zero]

end Symbol

theorem Ty.effects_storeIndirect (t : Ty) :
    effects t.storeIndirect = some (-(t.stackSize + 4 : Nat) : Int) := by
  unfold storeIndirect Ty.stackSize
  split
  · rfl
  · rw [effects_cons (m := 0) rfl (effects_popCopy _ _), Int.zero_add]

/-- The bytes that a result takes on the stack. -/
def resultSize : Option Ty → Nat
  | none => 4
  | some t => t.stackSize

theorem Context.effects_returnCode {ctx : Context} {result : Option Ty} {code : List Instr}
    (h : ctx.returnCode result = .ok code) : effects code = some (-resultSize result : Int) := by
  unfold returnCode at h
  cases result with
  | none =>
    cases h
    rfl
  | some t =>
    unfold resultSize Ty.stackSize
    by_cases hp : t.isPrimitive
    · simp only [hp, if_true] at h ⊢
      cases h
      rfl
    · simp only [hp] at h ⊢
      obtain ⟨s, -, h⟩ := except_bind_eq_ok.1 h
      cases h
      have hload : effects [.load .eax s.address] = some 0 := rfl
      rw [effects_append (effects_append hload (effects_popCopy _ _)) hload, Int.zero_add,
        Int.add_zero, Nat.add_zero]
      rfl

/-! ### The parts of a call -/

namespace FunctionSignature

/-- The bytes of the address that is passed for an aggregate result. -/
def hiddenSize (f : FunctionSignature) : Nat :=
  if f.returnsAggregate then 4 else 0

/-- The bytes that the caller reserves for an aggregate result. -/
def roomSize (f : FunctionSignature) : Nat :=
  match f.aggregate? with
  | some t => t.alignedSize
  | none => 0

/-- Reserves the room for an aggregate result. -/
def makeRoom (f : FunctionSignature) : List Instr :=
  match f.aggregate? with
  | some t => [.arith .sub .esp (.imm t.alignedSize)]
  | none => []

/-- Passes the address of the room, which lies above arguments of `pushed` bytes. -/
def passRoom (f : FunctionSignature) (pushed : Nat) : List Instr :=
  match f.aggregate? with
  | some _ => [.lea .edx (.stack pushed), .pushReg .edx]
  | none => []

/-- The bytes of the result that are left on the stack. -/
def keptSize (f : FunctionSignature) (keep : Bool) : Nat :=
  if keep then (f.result.map Ty.stackSize).getD 0 else 0

/-- Pushes the result, or drops it. -/
def settleResult (f : FunctionSignature) (keep : Bool) : List Instr :=
  match f.aggregate? with
  | some t => if keep then [] else [.arith .add .esp (.imm t.alignedSize)]
  | none => if keep && f.result.isSome then [.pushReg .eax] else []

end FunctionSignature

theorem callSequence_eq (f : FunctionSignature) (name : String) (pushes : List Instr) (pushed : Nat)
    {keep : Bool} (hkeep : f.result = none → keep = false) :
    callSequence name f.result pushes pushed keep =
      f.makeRoom ++ pushes ++ f.passRoom pushed ++ [.call name] ++
        release (pushed + f.hiddenSize) ++ f.settleResult keep := by
  unfold callSequence FunctionSignature.makeRoom FunctionSignature.passRoom
    FunctionSignature.settleResult FunctionSignature.hiddenSize FunctionSignature.returnsAggregate
    FunctionSignature.aggregate?
  cases hr : f.result with
  | none => simp [hkeep hr]
  | some t =>
    by_cases hp : t.isPrimitive
    · simp [hp, Option.filter]
    · simp [hp, Option.filter]

namespace FunctionSignature

variable (f : FunctionSignature)

theorem effects_makeRoom : effects f.makeRoom = some (f.roomSize : Int) := by
  unfold makeRoom roomSize
  cases f.aggregate? with
  | none => rfl
  | some t => simp [effects, Instr.effect]

theorem effects_passRoom (pushed : Nat) :
    effects (f.passRoom pushed) = some (f.hiddenSize : Int) := by
  unfold passRoom hiddenSize returnsAggregate
  cases f.aggregate? with
  | none => rfl
  | some t => rfl

theorem effects_settleResult {keep : Bool} (hkeep : f.result = none → keep = false) :
    effects (f.settleResult keep) = some ((f.keptSize keep : Int) - f.roomSize) := by
  unfold settleResult keptSize roomSize aggregate?
  cases hr : f.result with
  | none =>
    rw [hkeep hr]
    rfl
  | some t =>
    by_cases hp : t.isPrimitive <;> cases keep <;>
      simp [hp, Option.filter, effects, Instr.effect, Ty.stackSize]

end FunctionSignature

/-- A call leaves what is kept of its result, and what its arguments push beyond their size. -/
theorem effects_callSequence (f : FunctionSignature) (name : String) {pushes : List Instr}
    {pushed : Nat} {k : Int} (hpushes : effects pushes = some (pushed + k)) {keep : Bool}
    (hkeep : f.result = none → keep = false) :
    effects (callSequence name f.result pushes pushed keep) = some (f.keptSize keep + k) := by
  have hcall : effects [.call name] = some 0 := rfl
  rw [callSequence_eq f name pushes pushed hkeep]
  refine effects_append_of (effects_append (effects_append (effects_append (effects_append
    f.effects_makeRoom hpushes) (f.effects_passRoom pushed)) hcall)
    (effects_release (pushed + f.hiddenSize))) (f.effects_settleResult hkeep) ?_
  omega

/-! ### Expressions -/

namespace Expr

/-- Whether the value of an expression takes `n` bytes on the stack. -/
def hasSize (ctx : Context) (n : Nat) (e : Expr) : Bool :=
  match e.pushedSize ctx with
  | .ok size => size == n
  | .error _ => false

theorem hasSize_iff {ctx : Context} {n : Nat} {e : Expr} :
    e.hasSize ctx n ↔ e.pushedSize ctx = .ok n := by
  unfold hasSize
  split <;> simp_all

mutual

/-- Whether all operands of binary operators, and all addresses that are popped to be read from,
take four bytes, also in the arguments of calls. -/
def consistent (ctx : Context) : Expr → Bool
  | .binary _ l r => l.hasSize ctx 4 && r.hasSize ctx 4 && l.consistent ctx && r.consistent ctx
  | .deref e => (e.arraySymbol? ctx).isSome || (e.hasSize ctx 4 && e.consistent ctx)
  | .cast e _ | .negate e | .step _ _ e => e.consistent ctx
  | .call _ args => allConsistent ctx args
  | .int _ | .str _ | .var _ | .addressOf _ => true

def allConsistent (ctx : Context) : List Expr → Bool
  | [] => true
  | e :: rest => e.consistent ctx && allConsistent ctx rest

end

/-- The bytes by which the value of an expression is larger than a word; less than zero for an empty
aggregate. -/
def excess (ctx : Context) (e : Expr) : Int :=
  match e.pushedSize ctx with
  | .ok n => n - 4
  | .error _ => 0

mutual

/-- The bytes that the code of an expression leaves on the stack below the value. -/
def surplus (ctx : Context) : Expr → Int
  | .binary _ l r => l.surplus ctx + l.excess ctx + r.surplus ctx + r.excess ctx
  | .deref e => if (e.arraySymbol? ctx).isSome then 0 else e.surplus ctx + e.excess ctx
  | .cast e _ => e.surplus ctx
  | .call _ args => argsSurplus ctx args
  | .int _ | .str _ | .var _ | .addressOf _ | .negate _ | .step _ _ _ => 0

/-- The same for all arguments of a call together: the caller only drops their values. -/
def argsSurplus (ctx : Context) : List Expr → Int
  | [] => 0
  | e :: rest => e.surplus ctx + argsSurplus ctx rest

end

variable {ctx : Context}

theorem effects_stepCode {op : StepOp} {e : Expr} {code : List Instr}
    (h : stepCode ctx op e = .ok code) :
    effects code = some 0 ∧ ∃ x s, e = .var x ∧ ctx.lookup x = .ok s ∧ s.type.stackSize = 4 := by
  obtain ⟨x, s, rfl, hx, hp, rfl⟩ := stepCode_eq_ok.1 h
  exact ⟨s.effects_stepCode op, x, s, rfl, hx, by rw [Ty.stackSize, if_pos hp]⟩

theorem excess_eq {e : Expr} {n : Nat} (h : e.pushedSize ctx = .ok n) : e.excess ctx = n - 4 := by
  rw [excess, h]

mutual

/-- **The code of an expression pushes its value and the surplus.** -/
theorem effects_lower_surplus : ∀ {e : Expr} {code : List Instr}, e.lower ctx = .ok code →
    ∃ n : Nat, e.pushedSize ctx = .ok n ∧ effects code = some (n + e.surplus ctx)
  | .int n, code, h => by
    rw [lower_int.1 h]
    exact ⟨4, rfl, rfl⟩
  | .str raw, code, h => by
    obtain ⟨l, -, rfl⟩ := lower_str.1 h
    exact ⟨4, rfl, rfl⟩
  | .var x, code, h => by
    obtain ⟨s, hx, rfl⟩ := lower_var.1 h
    refine ⟨s.type.stackSize, except_bind_eq_ok.2 ⟨s, hx, rfl⟩, ?_⟩
    rw [surplus, Int.add_zero, s.effects_pushCode]
  | .addressOf x, code, h => by
    obtain ⟨s, -, rfl⟩ := lower_addressOf.1 h
    exact ⟨4, rfl, rfl⟩
  | .deref e, code, h => by
    obtain ⟨t, ht, ⟨s, hs, rfl⟩ | ⟨hnone, address, ha, rfl⟩⟩ := lower_deref.1 h
    · refine ⟨t.stackSize, except_bind_eq_ok.2 ⟨t, ht, rfl⟩, ?_⟩
      rw [effects_cons (m := 0) rfl (effects_pushIndirect t), surplus, hs, Int.zero_add]
      simp
    · obtain ⟨n, hn, heff⟩ := effects_lower_surplus ha
      refine ⟨t.stackSize, except_bind_eq_ok.2 ⟨t, ht, rfl⟩, ?_⟩
      refine effects_append_of heff (effects_cons (m := -4) rfl (effects_pushIndirect t)) ?_
      rw [surplus, hnone, Option.isSome_none, if_neg Bool.false_ne_true, excess_eq hn]
      omega
  | .cast e target, code, h => by
    rw [surplus]
    exact effects_lower_surplus (e := e) (lower_cast.1 h)
  | .binary op l r, code, h => by
    obtain ⟨left, right, hl, hr, rfl⟩ := lower_binary.1 h
    obtain ⟨n₁, hn₁, heff₁⟩ := effects_lower_surplus hl
    obtain ⟨n₂, hn₂, heff₂⟩ := effects_lower_surplus hr
    refine ⟨4, rfl, effects_append_of (effects_append heff₁ heff₂) op.effects_code ?_⟩
    rw [surplus, excess_eq hn₁, excess_eq hn₂]
    omega
  | .negate e, code, h => absurd h lower_negate
  | .step op .before e, code, h => by
    obtain ⟨step, value, hs, hv, rfl⟩ := lower_stepBefore.1 h
    obtain ⟨heff, x, s, rfl, hx, hsize⟩ := effects_stepCode hs
    obtain ⟨s', hx', rfl⟩ := lower_var.1 hv
    cases hx.symm.trans hx'
    exact ⟨4, rfl, effects_append_of heff s.effects_pushCode (by rw [surplus]; omega)⟩
  | .step op .after e, code, h => by
    obtain ⟨value, step, hv, hs, rfl⟩ := lower_stepAfter.1 h
    obtain ⟨heff, x, s, rfl, hx, hsize⟩ := effects_stepCode hs
    obtain ⟨s', hx', rfl⟩ := lower_var.1 hv
    cases hx.symm.trans hx'
    exact ⟨4, rfl, effects_append_of s.effects_pushCode heff (by rw [surplus]; omega)⟩
  | .call f args, code, h => by
    obtain ⟨signature, pushes, pushed, hf, -, hargs, hkeep, rfl⟩ :=
      lowerCall_eq_ok.1 (lower_call.1 h)
    have heff := effects_callSequence signature f (effects_lowerArgs_surplus hargs) hkeep
    refine ⟨_, except_bind_eq_ok.2 ⟨signature, hf, ?_⟩, heff⟩
    cases hresult : signature.result with
    | none => cases hkeep hresult
    | some t => simp [FunctionSignature.keptSize, hresult, pure, Except.pure]

theorem effects_lowerArgs_surplus : ∀ {args : List Expr} {code : List Instr} {pushed : Nat},
    lowerArgs ctx args = .ok (code, pushed) →
    effects code = some (pushed + argsSurplus ctx args)
  | [], code, pushed, h => by
    obtain ⟨rfl, rfl⟩ := lowerArgs_nil.1 h
    rfl
  | e :: rest, code, pushed, h => by
    obtain ⟨more, n, value, size, hm, hv, hs, rfl, rfl⟩ := lowerArgs_cons.1 h
    obtain ⟨k, hk, heff⟩ := effects_lower_surplus hv
    cases hk.symm.trans hs
    refine effects_append_of (effects_lowerArgs_surplus hm) heff ?_
    rw [argsSurplus]
    omega

end

mutual

/-- Nothing is left if all operators take words. -/
theorem surplus_of_consistent : ∀ {e : Expr}, e.consistent ctx → e.surplus ctx = 0
  | .int _, _ | .str _, _ | .var _, _ | .addressOf _, _ | .negate _, _ | .step _ _ _, _ => by
    rw [surplus]
  | .cast e _, h => by
    rw [surplus]
    exact surplus_of_consistent (by simpa [consistent] using h)
  | .binary _ l r, h => by
    simp only [consistent, Bool.and_eq_true] at h
    obtain ⟨⟨⟨hsl, hsr⟩, hcl⟩, hcr⟩ := h
    rw [surplus, surplus_of_consistent hcl, surplus_of_consistent hcr,
      excess_eq (hasSize_iff.1 hsl), excess_eq (hasSize_iff.1 hsr)]
    rfl
  | .deref e, h => by
    rw [surplus]
    split
    · rfl
    · rename_i hnone
      obtain ⟨hs, hc⟩ : e.hasSize ctx 4 ∧ e.consistent ctx := by
        simpa [consistent, hnone] using h
      rw [surplus_of_consistent hc, excess_eq (hasSize_iff.1 hs)]
      rfl
  | .call _ args, h => by
    rw [surplus]
    exact argsSurplus_of_allConsistent (by simpa [consistent] using h)

theorem argsSurplus_of_allConsistent : ∀ {args : List Expr}, allConsistent ctx args →
    argsSurplus ctx args = 0
  | [], _ => by rw [argsSurplus]
  | e :: rest, h => by
    obtain ⟨hce, hcrest⟩ : e.consistent ctx ∧ allConsistent ctx rest := by
      simpa [allConsistent] using h
    rw [argsSurplus, surplus_of_consistent hce, argsSurplus_of_allConsistent hcrest]
    rfl

end

/-- The code of an expression pushes what `pushedSize` says, if all operators take words. -/
theorem effects_lower {e : Expr} {code : List Instr} (hc : e.consistent ctx)
    (h : e.lower ctx = .ok code) :
    ∃ n : Nat, e.pushedSize ctx = .ok n ∧ effects code = some (n : Int) := by
  obtain ⟨n, hn, heff⟩ := effects_lower_surplus h
  rw [surplus_of_consistent hc, Int.add_zero] at heff
  exact ⟨n, hn, heff⟩

theorem effects_lowerCall {f : String} {args : List Expr} {code : List Instr}
    (hc : (Expr.call f args).consistent ctx) (h : lowerCall ctx f args false = .ok code) :
    effects code = some 0 := by
  obtain ⟨signature, pushes, pushed, -, -, hargs, hkeep, rfl⟩ := lowerCall_eq_ok.1 h
  have heff := effects_callSequence signature f (effects_lowerArgs_surplus hargs) hkeep
  rwa [argsSurplus_of_allConsistent (by simpa [consistent] using hc), Int.add_zero] at heff

/-- An expression of a known size pushes that many bytes. -/
theorem effects_of_hasSize {e : Expr} {code : List Instr} {n : Nat} (hc : e.consistent ctx)
    (hs : e.hasSize ctx n) (h : e.lower ctx = .ok code) : effects code = some (n : Int) := by
  obtain ⟨k, hk, heff⟩ := effects_lower hc h
  cases hk.symm.trans (hasSize_iff.1 hs)
  exact heff

/-- Whether an expression can be stored to a place of the type `dest`, if that is known. -/
def fits (ctx : Context) (e : Expr) (dest : Option Ty) : Bool :=
  match dest with
  | some t => e.consistent ctx && e.hasSize ctx t.stackSize
  | none => false

theorem effects_of_fits {e : Expr} {code : List Instr} {t : Ty} (hf : e.fits ctx (some t))
    (h : e.lower ctx = .ok code) : effects code = some (t.stackSize : Int) := by
  obtain ⟨hc, hs⟩ := Bool.and_eq_true_iff.1 hf
  exact effects_of_hasSize hc hs h

/-- Whether an expression can be tested or taken for an address. -/
def isDword (ctx : Context) (e : Expr) : Bool :=
  e.consistent ctx && e.hasSize ctx 4

theorem effects_of_isDword {e : Expr} {code : List Instr} (hd : e.isDword ctx)
    (h : e.lower ctx = .ok code) : effects code = some 4 := by
  obtain ⟨hc, hs⟩ := Bool.and_eq_true_iff.1 hd
  exact effects_of_hasSize hc hs h

/-- **How exact `pushedSize` is.** If the code of an expression runs, with calls that restore the
stack pointer, the stack pointer is lowered by the size of the value and the surplus. So the size is
exact just if there is no surplus, and there is none if no operator and no dereference takes an
aggregate. -/
theorem esp_of_run_lower {e : Expr} {code : List Instr} (h : e.lower ctx = .ok code) :
    ∃ n : Nat, e.pushedSize ctx = .ok n ∧
      (∀ env : Environment, env.Restores → ∀ m m', Instr.run env code m = some m' →
        m'.esp = m.esp - .ofInt 32 (n + e.surplus ctx)) ∧
      (effects code = some (n : Int) ↔ e.surplus ctx = 0) ∧
      (e.consistent ctx → e.surplus ctx = 0) := by
  obtain ⟨n, hn, heff⟩ := effects_lower_surplus h
  refine ⟨n, hn, fun env henv m m' hrun => esp_of_run henv heff hrun, ?_, surplus_of_consistent⟩
  rw [heff, Option.some.injEq]
  omega

/-- A frame with an array of eight bytes, in a program with a function of one argument. -/
def arrayContext : Context where
  functions := ⟨[⟨"f", [("n", .int32)], some .int32, false⟩]⟩
  scopes :=
    { scopes :=
        [{ id := 0, kind := .function, symbols := [⟨"a", .array .byte 8, 8⟩], start := 0,
           cursor := 8 }] }

/-- After the call `f(a + 1)` one half of the array is still below the result. -/
theorem esp_of_run_call_of_array_sum : ∃ code,
    (Expr.call "f" [.binary .add (.var "a") (.int 1)]).lower arrayContext = .ok code ∧
    (Expr.call "f" [.binary .add (.var "a") (.int 1)]).pushedSize arrayContext = .ok 4 ∧
    ∀ env : Environment, env.Restores → ∀ m m', Instr.run env code m = some m' →
      m'.esp = m.esp - 8 := by
  obtain ⟨n, hn, hrun, -⟩ := @esp_of_run_lower arrayContext
    (.call "f" [.binary .add (.var "a") (.int 1)]) _ rfl
  obtain rfl : 4 = n := Except.ok.inj hn
  exact ⟨_, rfl, rfl, hrun⟩

/-- The value of `a + 1` takes four bytes, but its code lowers the stack pointer by eight. -/
theorem array_sum_pushes_more : ∃ code,
    (Expr.binary .add (.var "a") (.int 1)).lower arrayContext = .ok code ∧
    (Expr.binary .add (.var "a") (.int 1)).pushedSize arrayContext = .ok 4 ∧
    effects code = some 8 :=
  ⟨_, rfl, rfl, rfl⟩

end Expr

/-! ### Statements -/

namespace Stmt

mutual

/-- Whether in a function with the given result all operands, conditions and addresses take four
bytes, and all values that are stored or returned take what their place takes. -/
def consistent (result : Option Ty) (ctx : Context) : Stmt → Bool
  | .declare _ _ none => true
  | .declare _ type (some init) => init.fits ctx (ctx.typeOf type).toOption
  | .assign x e => e.fits ctx ((ctx.lookup x).toOption.map (·.type))
  | .store x e => e.fits ctx ((ctx.lookup x).toOption.bind (·.type.pointee?))
  | .storeAt a e => a.isDword ctx && e.fits ctx (a.readType ctx).toOption
  | .branch first others otherwise =>
    armConsistent result ctx first && armsConsistent result ctx others &&
      elseConsistent result ctx otherwise
  | .whileLoop condition body =>
    condition.isDword (ctx.enter .whileLoop) && allConsistent result (ctx.enter .whileLoop) body
  | .forLoop init condition increment body =>
    clauseConsistent result (ctx.enter .forLoop) init &&
      condition.all (·.isDword ((ctx.enter .forLoop).pastClause init)) &&
      allConsistent result ((ctx.enter .forLoop).pastClause init) body &&
      clauseConsistent result (((ctx.enter .forLoop).pastClause init).pastAll body) increment
  | .ret (some e) => e.consistent ctx && e.hasSize ctx (resultSize result)
  | .run e => e.consistent ctx
  | .step _ _ | .breakLoop | .continueLoop | .ret none => true

def allConsistent (result : Option Ty) (ctx : Context) : List Stmt → Bool
  | [] => true
  | s :: rest => consistent result ctx s && allConsistent result (ctx.past s) rest

def armConsistent (result : Option Ty) (ctx : Context) : Arm → Bool
  | .mk condition body =>
    condition.isDword ctx && allConsistent result (ctx.enter .branch) body

def armsConsistent (result : Option Ty) (ctx : Context) : List Arm → Bool
  | [] => true
  | a :: rest => armConsistent result ctx a && armsConsistent result ctx rest

def elseConsistent (result : Option Ty) (ctx : Context) : Option (List Stmt) → Bool
  | none => true
  | some body => allConsistent result (ctx.enter .branch) body

def clauseConsistent (result : Option Ty) (ctx : Context) : Option Stmt → Bool
  | none => true
  | some s => consistent result ctx s

end

end Stmt

/-- The same for a phrase. -/
def Phrase.consistent (result : Option Ty) (ctx : Context) : Phrase → Bool
  | stmt s => s.consistent result ctx
  | seq body => Stmt.allConsistent result ctx body
  | arm _ _ a => Stmt.armConsistent result ctx a
  | arms _ _ _ rest => Stmt.armsConsistent result ctx rest
  | otherwise _ body => Stmt.elseConsistent result ctx body
  | clause s => Stmt.clauseConsistent result ctx s

end GLang
