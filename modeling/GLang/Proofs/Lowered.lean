import GLang.Proofs.Moves
import GLang.Proofs.Placeholder
import GLang.Proofs.Parsed

/-!
# The code of expressions, taken apart

For each kind of expression, what it takes for the expression to compile and what its code then is:
`Expr.lower_var`, `Expr.lower_binary`, … and `Expr.callCode_eq_ok`. Proofs about the code of
expressions go through these.

The first use is `Expr.isPlain_lower`: the code of an expression that has been read holds no
comment.
-/

namespace GLang

open Asm

namespace Expr

variable {ctx : Context} {code : List Instr}

theorem lower_int {n : Int} : (Expr.int n).lower ctx = .ok code ↔ code = [.pushImm n] := by
  rw [lower]
  exact ⟨fun h => (Except.ok.inj h).symm, fun h => congrArg Except.ok h.symm⟩

theorem lower_str {raw : String} :
    (Expr.str raw).lower ctx = .ok code ↔
      ∃ l, ctx.literals.label raw = .ok l ∧ code = [.pushLabel l] := by
  rw [lower, except_bind_eq_ok]
  simp only [pure, Except.pure, Except.ok.injEq, eq_comm]

theorem lower_var {x : String} :
    (Expr.var x).lower ctx = .ok code ↔ ∃ s, ctx.lookup x = .ok s ∧ code = s.pushCode := by
  rw [lower, except_bind_eq_ok]
  simp only [pure, Except.pure, Except.ok.injEq, eq_comm]

theorem lower_addressOf {x : String} :
    (Expr.addressOf x).lower ctx = .ok code ↔
      ∃ s, ctx.lookup x = .ok s ∧ code = [.lea .eax s.address, .pushReg .eax] := by
  rw [lower, except_bind_eq_ok]
  simp only [pure, Except.pure, Except.ok.injEq, eq_comm]

theorem lower_cast {e : Expr} {target : String} :
    (Expr.cast e target).lower ctx = .ok code ↔ e.lower ctx = .ok code := by
  rw [lower]

theorem lower_binary {op : BinOp} {l r : Expr} :
    (Expr.binary op l r).lower ctx = .ok code ↔
      ∃ left right, l.lower ctx = .ok left ∧ r.lower ctx = .ok right ∧
        code = left ++ right ++ op.code := by
  rw [lower]
  simp only [except_bind_eq_ok, pure, Except.pure, Except.ok.injEq]
  constructor
  · rintro ⟨left, hl, right, hr, rfl⟩
    exact ⟨left, right, hl, hr, rfl⟩
  · rintro ⟨left, right, hl, hr, rfl⟩
    exact ⟨left, hl, right, hr, rfl⟩

theorem lower_negate {e : Expr} : ¬ (Expr.negate e).lower ctx = .ok code := by
  rw [lower, except_bind_eq_ok]
  rintro ⟨_, -, h⟩
  cases h

/-- The address of an array variable is loaded, any other address is computed and popped. -/
theorem lower_deref {e : Expr} :
    (Expr.deref e).lower ctx = .ok code ↔
      ∃ t, e.readType ctx = .ok t ∧
        ((∃ s, e.arraySymbol? ctx = some s ∧ code = .lea .eax s.address :: pushIndirect t) ∨
        (e.arraySymbol? ctx = none ∧ ∃ address, e.lower ctx = .ok address ∧
          code = address ++ .pop .eax :: pushIndirect t)) := by
  rw [lower]
  unfold derefCode
  cases e.arraySymbol? ctx with
  | some s =>
    simp only [Option.isSome_some, if_true, except_bind_eq_ok, pure, Except.pure, Except.ok.injEq]
    constructor
    · rintro ⟨_, rfl, _, ⟨t, ht, rfl⟩, rfl⟩
      exact ⟨t, ht, .inl ⟨s, rfl, rfl⟩⟩
    · rintro ⟨t, ht, ⟨s', hs, rfl⟩ | ⟨hs, -⟩⟩
      · cases hs
        exact ⟨[], rfl, _, ⟨t, ht, rfl⟩, rfl⟩
      · cases hs
  | none =>
    simp only [Option.isSome_none, Bool.false_eq_true, if_false, except_bind_eq_ok, pure,
      Except.pure, Except.ok.injEq]
    constructor
    · rintro ⟨address, ha, _, ⟨t, ht, rfl⟩, rfl⟩
      exact ⟨t, ht, .inr ⟨trivial, address, ha, rfl⟩⟩
    · rintro ⟨t, ht, ⟨s, hs, -⟩ | ⟨-, address, ha, rfl⟩⟩
      · cases hs
      · exact ⟨address, ha, _, ⟨t, ht, rfl⟩, rfl⟩

theorem stepCode_eq_ok {op : StepOp} {e : Expr} :
    stepCode ctx op e = .ok code ↔
      ∃ x s, e = .var x ∧ ctx.lookup x = .ok s ∧ s.type.isPrimitive ∧ code = s.stepCode op := by
  cases e with
  | var x =>
    unfold stepCode
    simp only [except_bind_eq_ok]
    constructor
    · rintro ⟨s, hs, h⟩
      by_cases hp : s.type.isPrimitive
      · rw [if_pos hp] at h
        cases h
        exact ⟨x, s, rfl, hs, hp, rfl⟩
      · rw [if_neg hp] at h
        cases h
    · rintro ⟨_, s, hx, hs, hp, rfl⟩
      cases hx
      exact ⟨s, hs, by rw [if_pos hp]; rfl⟩
  | _ =>
    constructor
    · intro h
      cases h
    · rintro ⟨_, _, h, -⟩
      cases h

theorem lower_stepBefore {op : StepOp} {e : Expr} :
    (Expr.step op .before e).lower ctx = .ok code ↔
      ∃ step value, stepCode ctx op e = .ok step ∧ e.lower ctx = .ok value ∧
        code = step ++ value := by
  rw [lower]
  simp only [except_bind_eq_ok, pure, Except.pure, Except.ok.injEq]
  constructor
  · rintro ⟨step, hs, value, hv, rfl⟩
    exact ⟨step, value, hs, hv, rfl⟩
  · rintro ⟨step, value, hs, hv, rfl⟩
    exact ⟨step, hs, value, hv, rfl⟩

theorem lower_stepAfter {op : StepOp} {e : Expr} :
    (Expr.step op .after e).lower ctx = .ok code ↔
      ∃ value step, e.lower ctx = .ok value ∧ stepCode ctx op e = .ok step ∧
        code = value ++ step := by
  rw [lower]
  simp only [except_bind_eq_ok, pure, Except.pure, Except.ok.injEq]
  constructor
  · rintro ⟨value, hv, step, hs, rfl⟩
    exact ⟨value, step, hv, hs, rfl⟩
  · rintro ⟨value, step, hv, hs, rfl⟩
    exact ⟨value, hv, step, hs, rfl⟩

theorem lower_call {f : String} {args : List Expr} :
    (Expr.call f args).lower ctx = .ok code ↔ lowerCall ctx f args true = .ok code := by
  rw [lower, lowerCall]

theorem lowerArgs_nil {pushed : Nat} :
    lowerArgs ctx [] = .ok (code, pushed) ↔ code = [] ∧ pushed = 0 := by
  rw [lowerArgs]
  simp [pure, Except.pure, eq_comm]

theorem lowerArgs_cons {e : Expr} {rest : List Expr} {pushed : Nat} :
    lowerArgs ctx (e :: rest) = .ok (code, pushed) ↔
      ∃ more n value size, lowerArgs ctx rest = .ok (more, n) ∧ e.lower ctx = .ok value ∧
        e.pushedSize ctx = .ok size ∧ code = more ++ value ∧ pushed = n + size := by
  rw [lowerArgs]
  simp only [except_bind_eq_ok, pure, Except.pure, Except.ok.injEq, Prod.mk.injEq]
  constructor
  · rintro ⟨⟨more, n⟩, hm, value, hv, size, hs, rfl, rfl⟩
    exact ⟨more, n, value, size, hm, hv, hs, rfl, rfl⟩
  · rintro ⟨more, n, value, size, hm, hv, hs, rfl, rfl⟩
    exact ⟨⟨more, n⟩, hm, value, hv, size, hs, rfl, rfl⟩

end Expr

/-- A call of a function with the given result type, whose arguments are pushed by `pushes` and take
`pushed` bytes. -/
def callSequence (f : String) (result : Option Ty) (pushes : List Instr) (pushed : Nat)
    (keep : Bool) : List Instr :=
  match result with
  | none => pushes ++ [.call f] ++ release pushed
  | some t =>
    if t.isPrimitive then
      pushes ++ [.call f] ++ release pushed ++ (if keep then [.pushReg .eax] else [])
    else
      [.arith .sub .esp (.imm t.alignedSize)] ++ pushes ++
        [.lea .edx (.stack pushed), .pushReg .edx, .call f] ++ release (pushed + 4) ++
        (if keep then [] else [.arith .add .esp (.imm t.alignedSize)])

/-- A call compiles if the function is known, takes that many arguments, and has a result if the
result is kept. -/
theorem Expr.callCode_eq_ok {ctx : Context} {f : String} {count : Nat}
    {args : Except LoweringError (List Instr × Nat)} {keep : Bool} {code : List Instr} :
    callCode ctx f count args keep = .ok code ↔
      ∃ signature pushes pushed, ctx.functions.get f = .ok signature ∧
        (signature.external = false → count = signature.params.length) ∧
        args = .ok (pushes, pushed) ∧ (signature.result = none → keep = false) ∧
        code = callSequence f signature.result pushes pushed keep := by
  unfold callCode
  rw [except_bind_eq_ok]
  constructor
  · rintro ⟨signature, hs, h⟩
    by_cases hcount : (!signature.external && decide (count ≠ signature.params.length)) = true
    · simp only [hcount, if_true] at h
      cases h
    · simp only [hcount] at h
      obtain ⟨⟨pushes, pushed⟩, hargs, h⟩ := except_bind_eq_ok.1 h
      refine ⟨signature, pushes, pushed, hs, ?_, hargs, ?_, ?_⟩
      · intro hexternal
        simpa [hexternal] using hcount
      · intro hnone
        cases keep with
        | false => rfl
        | true =>
          simp only [hnone, if_true] at h
          cases h
      · unfold callSequence
        cases hresult : signature.result with
        | none =>
          cases keep with
          | false =>
            simp only [hresult] at h
            cases h
            rfl
          | true =>
            simp only [hresult, if_true] at h
            cases h
        | some t =>
          simp only [hresult] at h
          by_cases hp : t.isPrimitive
          · simp only [hp, if_true] at h ⊢
            cases h
            rfl
          · simp only [hp] at h ⊢
            cases h
            rfl
  · rintro ⟨signature, pushes, pushed, hs, hcount, rfl, hkeep, rfl⟩
    refine ⟨signature, hs, ?_⟩
    have hcount : ¬ (!signature.external && decide (count ≠ signature.params.length)) = true := by
      cases hexternal : signature.external with
      | true => simp
      | false => simp [hcount hexternal]
    simp only [hcount]
    refine except_bind_eq_ok.2 ⟨(pushes, pushed), rfl, ?_⟩
    unfold callSequence
    cases hresult : signature.result with
    | none =>
      rw [hkeep hresult]
      rfl
    | some t =>
      by_cases hp : t.isPrimitive
      · simp only [hp, if_true]
        rfl
      · simp only [hp]
        rfl

theorem Expr.lowerCall_eq_ok {ctx : Context} {f : String} {args : List Expr} {keep : Bool}
    {code : List Instr} :
    lowerCall ctx f args keep = .ok code ↔
      ∃ signature pushes pushed, ctx.functions.get f = .ok signature ∧
        (signature.external = false → args.length = signature.params.length) ∧
        lowerArgs ctx args = .ok (pushes, pushed) ∧ (signature.result = none → keep = false) ∧
        code = callSequence f signature.result pushes pushed keep :=
  callCode_eq_ok

/-! ### No instruction holds a comment -/

/-- Moves name nothing but `memcpy`. -/
theorem Moves.isPlain {is : List Instr} (h : Moves is) : ∀ i ∈ is, i.isPlain := by
  refine h.forall_mem (fun i hi => ?_) (show isPlainName "memcpy" by decide)
  cases i with
  | pushLabel | call | jump | jumpZero | jumpEqual => cases hi
  | _ => rfl

theorem LiteralPool.isPlain_label {pool : LiteralPool} {raw : String} {l : Label}
    (h : pool.label raw = .ok l) : l.isPlain := by
  unfold label at h
  split at h
  · rename_i hl
    obtain ⟨k, -, rfl⟩ := Option.map_eq_some_iff.1 hl
    cases h
    rfl
  · cases h

theorem isPlain_callSequence {f : String} (hf : isPlainName f) (result : Option Ty)
    {pushes : List Instr} (hpushes : ∀ i ∈ pushes, i.isPlain) (pushed : Nat) (keep : Bool) :
    ∀ i ∈ callSequence f result pushes pushed keep, i.isPlain := by
  have hcall : (Instr.call f).isPlain := hf
  have hrelease := fun size => (moves_release size).isPlain
  unfold callSequence
  split
  · simp only [List.forall_mem_append, List.forall_mem_singleton]
    exact ⟨⟨hpushes, hcall⟩, hrelease pushed⟩
  · split
    · simp only [List.forall_mem_append, List.forall_mem_singleton]
      refine ⟨⟨⟨hpushes, hcall⟩, hrelease pushed⟩, ?_⟩
      cases keep <;> simp [Instr.isPlain]
    · simp only [List.forall_mem_append]
      refine ⟨⟨⟨⟨List.forall_mem_singleton.2 rfl, hpushes⟩, ?_⟩, hrelease _⟩, ?_⟩
      · simpa [Instr.isPlain] using hf
      · cases keep <;> simp [Instr.isPlain]

namespace Expr

variable {ctx : Context} {code : List Instr}

theorem isPlain_stepCode {op : StepOp} {e : Expr} (h : stepCode ctx op e = .ok code) :
    ∀ i ∈ code, i.isPlain := by
  obtain ⟨x, s, -, -, -, rfl⟩ := stepCode_eq_ok.1 h
  exact (s.moves_stepCode op).isPlain

mutual

/-- **The code of an expression holds no comment.** -/
theorem isPlain_lower : ∀ {e : Expr} {code : List Instr}, e.wellFormed → e.lower ctx = .ok code →
    ∀ i ∈ code, i.isPlain
  | .int n, code, _, h => by
    rw [lower_int.1 h]
    simp [Instr.isPlain]
  | .str raw, code, _, h => by
    obtain ⟨l, hl, rfl⟩ := lower_str.1 h
    exact List.forall_mem_singleton.2 (LiteralPool.isPlain_label hl)
  | .var x, code, _, h => by
    obtain ⟨s, -, rfl⟩ := lower_var.1 h
    exact s.moves_pushCode.isPlain
  | .addressOf x, code, _, h => by
    obtain ⟨s, -, rfl⟩ := lower_addressOf.1 h
    simp [Instr.isPlain]
  | .deref e, code, hw, h => by
    obtain ⟨t, -, ⟨s, -, rfl⟩ | ⟨-, address, ha, rfl⟩⟩ := lower_deref.1 h
    · exact List.forall_mem_cons.2 ⟨rfl, (moves_pushIndirect t).isPlain⟩
    · exact List.forall_mem_append.2 ⟨isPlain_lower (e := e) (by simpa [wellFormed] using hw) ha,
        List.forall_mem_cons.2 ⟨rfl, (moves_pushIndirect t).isPlain⟩⟩
  | .cast e target, code, hw, h =>
    isPlain_lower (e := e) (by simpa [wellFormed] using hw) (lower_cast.1 h)
  | .binary op l r, code, hw, h => by
    obtain ⟨left, right, hl, hr, rfl⟩ := lower_binary.1 h
    obtain ⟨hwl, hwr⟩ : l.wellFormed ∧ r.wellFormed := by simpa [wellFormed] using hw
    exact List.forall_mem_append.2
      ⟨List.forall_mem_append.2 ⟨isPlain_lower hwl hl, isPlain_lower hwr hr⟩, op.moves_code.isPlain⟩
  | .negate e, code, _, h => absurd h lower_negate
  | .step op .before e, code, hw, h => by
    obtain ⟨step, value, hs, hv, rfl⟩ := lower_stepBefore.1 h
    exact List.forall_mem_append.2
      ⟨isPlain_stepCode hs, isPlain_lower (e := e) (by simpa [wellFormed] using hw) hv⟩
  | .step op .after e, code, hw, h => by
    obtain ⟨value, step, hv, hs, rfl⟩ := lower_stepAfter.1 h
    exact List.forall_mem_append.2
      ⟨isPlain_lower (e := e) (by simpa [wellFormed] using hw) hv, isPlain_stepCode hs⟩
  | .call f args, code, hw, h => by
    obtain ⟨signature, pushes, pushed, -, -, hargs, -, rfl⟩ := lowerCall_eq_ok.1 (lower_call.1 h)
    obtain ⟨hf, hwargs⟩ : isPlainName f ∧ allWellFormed args := by simpa [wellFormed] using hw
    exact isPlain_callSequence hf _ (isPlain_lowerArgs hwargs hargs) _ _

theorem isPlain_lowerArgs : ∀ {args : List Expr} {code : List Instr} {pushed : Nat},
    allWellFormed args → lowerArgs ctx args = .ok (code, pushed) → ∀ i ∈ code, i.isPlain
  | [], code, pushed, _, h => by
    rw [(lowerArgs_nil.1 h).1]
    simp
  | e :: rest, code, pushed, hw, h => by
    obtain ⟨more, n, value, size, hm, hv, -, rfl, -⟩ := lowerArgs_cons.1 h
    obtain ⟨hwe, hwrest⟩ : e.wellFormed ∧ allWellFormed rest := by simpa [allWellFormed] using hw
    exact List.forall_mem_append.2 ⟨isPlain_lowerArgs hwrest hm, isPlain_lower hwe hv⟩

end

theorem isPlain_lowerCall {f : String} {args : List Expr} {keep : Bool}
    (hw : (Expr.call f args).wellFormed) (h : lowerCall ctx f args keep = .ok code) :
    ∀ i ∈ code, i.isPlain := by
  obtain ⟨signature, pushes, pushed, -, -, hargs, -, rfl⟩ := lowerCall_eq_ok.1 h
  obtain ⟨hf, hwargs⟩ : isPlainName f ∧ allWellFormed args := by simpa [wellFormed] using hw
  exact isPlain_callSequence hf _ (isPlain_lowerArgs hwargs hargs) _ _

end Expr

end GLang
