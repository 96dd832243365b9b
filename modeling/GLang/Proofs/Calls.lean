import GLang.Proofs.Effect
import GLang.Proofs.Moves

/-!
# Calls in the code of expressions

The code of an expression runs straight through. It moves values, pushes addresses of string
literals and calls functions: `Straight`, and `Expr.straight_lower`. Among the moves are the copies
of aggregates, which call `memcpy`.

So each call in it is one of a copy, or it stands between the code that pushes the arguments and the
code that drops them, made with the signature of the function: `Code.CallSite`, and
`Straight.sited`.
-/

namespace GLang

open Asm

/-! ### More moves -/

theorem Context.moves_returnCode {ctx : Context} {result : Option Ty} {code : List Instr}
    (h : ctx.returnCode result = .ok code) : Moves code := by
  unfold returnCode at h
  split at h
  · cases h
    exact .cons rfl .nil
  · split at h
    · cases h
      exact .cons rfl .nil
    · obtain ⟨s, -, h⟩ := except_bind_eq_ok.1 h
      cases h
      exact .append (.cons rfl (moves_popCopy _ _)) (.cons rfl .nil)

namespace FunctionSignature

variable (f : FunctionSignature)

theorem moves_makeRoom : Moves f.makeRoom := by
  unfold makeRoom
  cases f.aggregate? <;> exact .of_isMove (by simp)

theorem moves_passRoom (pushed : Nat) : Moves (f.passRoom pushed) := by
  unfold passRoom
  cases f.aggregate? <;> exact .of_isMove (by simp)

theorem moves_settleResult (keep : Bool) : Moves (f.settleResult keep) := by
  unfold settleResult
  cases f.aggregate? <;> cases keep <;> exact .of_isMove (by simp)

end FunctionSignature

theorem LiteralPool.exists_of_label {pool : LiteralPool} {raw : String} {l : Label}
    (h : pool.label raw = .ok l) : ∃ k, l = .literal k := by
  unfold label at h
  split at h
  · rename_i hl
    obtain ⟨k, -, rfl⟩ := Option.map_eq_some_iff.1 hl
    cases h
    exact ⟨k, rfl⟩
  · cases h

/-! ### Expressions -/

/-- Straight code in a program with the declarations `d`: moves, addresses of literals, and calls of
functions with their arguments. There are as many arguments as the function has parameters, if it is
defined in the program. -/
inductive Straight (d : Declarations) : List Instr → Prop where
  | moves {is} (h : Moves is) : Straight d is
  | literal (k : Nat) : Straight d [.pushLabel (.literal k)]
  | append {is js} (h : Straight d is) (h' : Straight d js) : Straight d (is ++ js)
  | call {ctx f s args pushes pushed} (keep : Bool) (hd : ctx.toDeclarations = d)
      (hs : d.functions.get f = .ok s)
      (hcount : s.external = false → args.length = s.params.length)
      (hargs : Expr.lowerArgs ctx args = .ok (pushes, pushed)) (h : Straight d pushes) :
      Straight d (s.makeRoom ++ pushes ++ s.passRoom pushed ++ [.call f] ++
        release (pushed + s.hiddenSize) ++ s.settleResult keep)

/-- What holds of moves, of addresses of literals and of calls holds of straight code. -/
theorem Straight.forall_mem {P : Instr → Prop} {d : Declarations} {is : List Instr}
    (h : Straight d is) (hmove : ∀ i : Instr, i.isMove → P i)
    (hliteral : ∀ k, P (.pushLabel (.literal k))) (hcall : ∀ f, P (.call f)) : ∀ i ∈ is, P i := by
  induction h with
  | moves h => exact h.forall_mem hmove (hcall _)
  | literal k => exact List.forall_mem_singleton.2 (hliteral k)
  | append _ _ ih ih' => exact List.forall_mem_append.2 ⟨ih, ih'⟩
  | @call _ f s _ _ pushed keep _ _ _ _ _ ih =>
    have hmoves : ∀ {is}, Moves is → ∀ i ∈ is, P i := fun h => h.forall_mem hmove (hcall _)
    simp only [List.forall_mem_append, List.forall_mem_singleton]
    exact ⟨⟨⟨⟨⟨hmoves s.moves_makeRoom, ih⟩, hmoves (s.moves_passRoom pushed)⟩, hcall f⟩,
      hmoves (moves_release _)⟩, hmoves (s.moves_settleResult keep)⟩

namespace Expr

variable {ctx : Context} {code : List Instr}

/-- The code of a call is straight if that of its arguments is. -/
theorem straight_of_lowerCall {f : String} {args : List Expr} {keep : Bool}
    (hargs : ∀ {pushes pushed}, lowerArgs ctx args = .ok (pushes, pushed) →
      Straight ctx.toDeclarations pushes)
    (h : lowerCall ctx f args keep = .ok code) : Straight ctx.toDeclarations code := by
  obtain ⟨signature, pushes, pushed, hs, hcount, hpushes, hkeep, rfl⟩ := lowerCall_eq_ok.1 h
  rw [callSequence_eq signature f pushes pushed hkeep]
  exact .call keep rfl hs hcount hpushes (hargs hpushes)

mutual

/-- **The code of an expression is straight.** -/
theorem straight_lower : ∀ {e : Expr} {code : List Instr}, e.lower ctx = .ok code →
    Straight ctx.toDeclarations code
  | .int n, code, h => by
    rw [lower_int.1 h]
    exact .moves (.cons rfl .nil)
  | .str raw, code, h => by
    obtain ⟨l, hl, rfl⟩ := lower_str.1 h
    obtain ⟨k, rfl⟩ := LiteralPool.exists_of_label hl
    exact .literal k
  | .var x, code, h => by
    obtain ⟨s, -, rfl⟩ := lower_var.1 h
    exact .moves s.moves_pushCode
  | .addressOf x, code, h => by
    obtain ⟨s, -, rfl⟩ := lower_addressOf.1 h
    exact .moves (.cons rfl (.cons rfl .nil))
  | .deref e, code, h => by
    obtain ⟨t, -, ⟨s, -, rfl⟩ | ⟨-, address, ha, rfl⟩⟩ := lower_deref.1 h
    · exact .moves (.cons rfl (moves_pushIndirect t))
    · exact (straight_lower ha).append (.moves (.cons rfl (moves_pushIndirect t)))
  | .cast e target, code, h => straight_lower (lower_cast.1 h)
  | .binary op l r, code, h => by
    obtain ⟨left, right, hl, hr, rfl⟩ := lower_binary.1 h
    exact ((straight_lower hl).append (straight_lower hr)).append (.moves op.moves_code)
  | .negate e, code, h => absurd h lower_negate
  | .step op .before e, code, h => by
    obtain ⟨step, value, hs, hv, rfl⟩ := lower_stepBefore.1 h
    obtain ⟨x, s, -, -, -, rfl⟩ := stepCode_eq_ok.1 hs
    exact (Straight.moves (s.moves_stepCode op)).append (straight_lower hv)
  | .step op .after e, code, h => by
    obtain ⟨value, step, hv, hs, rfl⟩ := lower_stepAfter.1 h
    obtain ⟨x, s, -, -, -, rfl⟩ := stepCode_eq_ok.1 hs
    exact (straight_lower hv).append (.moves (s.moves_stepCode op))
  | .call f args, code, h =>
    straight_of_lowerCall (fun hargs => straight_lowerArgs hargs) (lower_call.1 h)

theorem straight_lowerArgs : ∀ {args : List Expr} {code : List Instr} {pushed : Nat},
    lowerArgs ctx args = .ok (code, pushed) → Straight ctx.toDeclarations code
  | [], code, pushed, h => by
    rw [(lowerArgs_nil.1 h).1]
    exact .moves .nil
  | e :: rest, code, pushed, h => by
    obtain ⟨more, n, value, size, hm, hv, -, rfl, -⟩ := lowerArgs_cons.1 h
    exact (straight_lowerArgs hm).append (straight_lower hv)

end

theorem straight_lowerCall {f : String} {args : List Expr} {keep : Bool}
    (h : lowerCall ctx f args keep = .ok code) : Straight ctx.toDeclarations code :=
  straight_of_lowerCall straight_lowerArgs h

end Expr

/-! ### What stands around a call -/

/-- Code that copies an aggregate. -/
def IsCopy (is : List Instr) : Prop :=
  (∃ size, is = pushCopy size) ∨ ∃ size extra, is = popCopy size extra

/-- Between `before` and `after` stands a call of `f`, in a program with the declarations `d`. It is
the call of a copy, or `before` ends with the arguments of a call that is compiled with the
signature of `f`, and `after` starts by dropping them and taking the result. -/
inductive Asm.Code.CallSite (d : Declarations) : String → Code → Code → Prop where
  | copy {is head tail before after} (hc : IsCopy is) (h : is = head ++ .call "memcpy" :: tail)
      (hbefore : Code.ofInstrs head <:+ before) (hafter : Code.ofInstrs tail <+: after) :
      CallSite d "memcpy" before after
  | compiled {ctx f s args pushes pushed before after} (keep : Bool) (hd : ctx.toDeclarations = d)
      (hs : d.functions.get f = .ok s)
      (hcount : s.external = false → args.length = s.params.length)
      (hargs : Expr.lowerArgs ctx args = .ok (pushes, pushed))
      (hbefore : Code.ofInstrs (s.makeRoom ++ pushes ++ s.passRoom pushed) <:+ before)
      (hafter : Code.ofInstrs (release (pushed + s.hiddenSize) ++ s.settleResult keep) <+: after) :
      CallSite d f before after

theorem Asm.Code.CallSite.within {d : Declarations} {f : String} {before after : Code}
    (h : CallSite d f before after) (left right : Code) :
    CallSite d f (left ++ before) (after ++ right) := by
  cases h with
  | copy hc h hbefore hafter =>
    exact .copy hc h (hbefore.trans (List.suffix_append _ _))
      (hafter.trans (List.prefix_append _ _))
  | compiled keep hd hs hcount hargs hbefore hafter =>
    exact .compiled keep hd hs hcount hargs (hbefore.trans (List.suffix_append _ _))
      (hafter.trans (List.prefix_append _ _))

theorem Asm.Code.CallSite.declared {d : Declarations} {f : String} {before after : Code}
    (h : CallSite d f before after) : f = "memcpy" ∨ ∃ s, d.functions.get f = .ok s := by
  cases h with
  | copy => exact .inl rfl
  | compiled _ _ hs => exact .inr ⟨_, hs⟩

/-- Every call in the code stands in its place. -/
def Asm.Code.Sited (d : Declarations) (code : Code) : Prop :=
  ∀ before f after, code = before ++ .instr (.call f) :: after → CallSite d f before after

namespace Asm.Code.Sited

variable {d : Declarations} {code code' : Code}

theorem of_notMem (h : ∀ f, .instr (.call f) ∉ code) : code.Sited d := by
  rintro before f after rfl
  exact absurd (List.mem_append_right _ List.mem_cons_self) (h f)

theorem append (h : code.Sited d) (h' : code'.Sited d) : (code ++ code').Sited d := by
  intro before f after heq
  rcases List.append_eq_append_iff.1 heq with ⟨between, rfl, hcode'⟩ | ⟨between, hcode, hafter⟩
  · simpa using (h' between f after hcode').within code []
  · cases between with
    | nil =>
      rw [List.append_nil] at hcode
      subst hcode
      simpa using (h' [] f after hafter.symm).within code []
    | cons line between =>
      obtain ⟨rfl, rfl⟩ := List.cons.inj hafter
      simpa using (h before f between hcode).within [] code'

/-- A call that stands in its place, between code whose calls do. -/
theorem call {f : String} (h : code.Sited d) (hsite : CallSite d f code code')
    (h' : code'.Sited d) : (code ++ .instr (.call f) :: code').Sited d := by
  intro before f' after heq
  rcases List.append_eq_append_iff.1 heq with ⟨between, rfl, hrest⟩ | ⟨between, hcode, hrest⟩
  · cases between with
    | nil =>
      cases hrest
      simpa using hsite
    | cons line between =>
      obtain ⟨rfl, hcode'⟩ := List.cons.inj hrest
      have hsite' := (h' between f' after hcode').within (code ++ [.instr (.call f)]) []
      simpa using hsite'
  · cases between with
    | nil =>
      rw [List.append_nil] at hcode
      subst hcode
      cases hrest
      exact hsite
    | cons line between =>
      obtain ⟨rfl, rfl⟩ := List.cons.inj hrest
      simpa using (h before f' between hcode).within [] (.instr (.call f) :: code')

theorem declared (h : code.Sited d) {f : String} (hf : .instr (.call f) ∈ code) :
    f = "memcpy" ∨ ∃ s, d.functions.get f = .ok s := by
  obtain ⟨before, after, heq⟩ := List.append_of_mem hf
  exact (h before f after heq).declared

theorem of_isCopy {is : List Instr} (hc : IsCopy is) : (Code.ofInstrs is).Sited d := by
  intro before f after heq
  obtain ⟨head, rest, rfl, rfl, hrest⟩ := List.map_eq_append_iff.1 heq
  obtain ⟨i, tail, rfl, hi, rfl⟩ := List.map_eq_cons_iff.1 hrest
  cases hi
  obtain rfl : f = "memcpy" := by
    have hmem : Instr.call f ∈ head ++ .call f :: tail :=
      List.mem_append_right _ List.mem_cons_self
    rcases hc with ⟨size, hc⟩ | ⟨size, extra, hc⟩
    · simpa [hc, pushCopy] using hmem
    · simpa [hc, popCopy] using hmem
  exact .copy hc rfl List.suffix_rfl List.prefix_rfl

end Asm.Code.Sited

theorem Moves.sited {is : List Instr} (h : Moves is) (d : Declarations) :
    (Code.ofInstrs is).Sited d := by
  induction h with
  | nil => exact .of_notMem fun f => List.not_mem_nil
  | @cons i is hi _ ih =>
    have hline : Code.Sited d [.instr i] := .of_notMem fun f hf => by
      cases List.mem_singleton.1 hf
      cases hi
    exact hline.append ih
  | pushCopy size _ ih =>
    rw [Code.ofInstrs_append]
    exact (Code.Sited.of_isCopy (.inl ⟨size, rfl⟩)).append ih
  | popCopy size extra _ ih =>
    rw [Code.ofInstrs_append]
    exact (Code.Sited.of_isCopy (.inr ⟨size, extra, rfl⟩)).append ih

/-- **Every call in straight code stands in its place.** -/
theorem Straight.sited {d : Declarations} {is : List Instr} (h : Straight d is) :
    (Code.ofInstrs is).Sited d := by
  induction h with
  | moves h => exact h.sited d
  | literal k => exact .of_notMem fun f hf => by cases List.mem_singleton.1 hf
  | append _ _ ih ih' =>
    rw [Code.ofInstrs_append]
    exact ih.append ih'
  | @call ctx f s args pushes pushed keep hd hs hcount hargs _ ih =>
    have hbefore : (Code.ofInstrs (s.makeRoom ++ pushes ++ s.passRoom pushed)).Sited d := by
      rw [Code.ofInstrs_append, Code.ofInstrs_append]
      exact ((s.moves_makeRoom.sited d).append ih).append ((s.moves_passRoom pushed).sited d)
    have hafter :
        (Code.ofInstrs (release (pushed + s.hiddenSize) ++ s.settleResult keep)).Sited d :=
      ((moves_release _).append (s.moves_settleResult keep)).sited d
    have hall := hbefore.call
      (.compiled keep hd hs hcount hargs List.suffix_rfl List.prefix_rfl) hafter
    simpa [Code.ofInstrs] using hall

end GLang
