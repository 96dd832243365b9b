import GLang.Lower.Stmt
import GLang.Proofs.Semantics

/-!
# Running the code of variables and operators

What the fixed instruction sequences do to a machine, in terms of the semantics: pushing, storing
and stepping a variable, and applying an operator to the two values on top of the stack.

* `BinOp.run_code`: an operator replaces its operands by their result.
* `Code.Safe`: a state from which the stack pointer never wraps. Only this is assumed of the stack.
* `Code.Steps.of_run`: instructions without jumps, as a part of code.
-/

namespace GLang

open Asm

namespace Asm

/-! ### Flags -/

namespace Flags

theorem holds_less (a b : Word) : (ofSub a b).holds .less = a.slt b := by
  have hsub : (a - b).toNat = (2 ^ 32 - b.toNat + a.toNat) % 2 ^ 32 := BitVec.toNat_sub a b
  have hsign (x : Word) : x.msb = decide (2 ^ 31 ≤ x.toNat) := BitVec.msb_eq_decide x
  have ha := a.isLt
  have hb := b.isLt
  rw [BitVec.slt_eq_decide, BitVec.toInt_eq_msb_cond, BitVec.toInt_eq_msb_cond]
  simp only [holds, ofSub]
  cases ha' : a.msb <;> cases hb' : b.msb <;> cases hs' : (a - b).msb <;>
    simp only [hsign, decide_eq_true_eq, decide_eq_false_iff_not] at ha' hb' hs' <;>
    simp <;> omega

theorem holds_equal (a b : Word) : (ofSub a b).holds .equal = (a == b) := by
  rw [Bool.eq_iff_iff, beq_iff_eq]
  simp only [holds, ofSub, beq_iff_eq]
  constructor
  · intro h
    bv_omega
  · rintro rfl
    simp

theorem holds_notEqual (a b : Word) : (ofSub a b).holds .notEqual = (a != b) :=
  congrArg (! ·) (holds_equal a b)

theorem holds_greaterEqual (a b : Word) : (ofSub a b).holds .greaterEqual = b.sle a := by
  rw [BitVec.sle_eq_not_slt, ← holds_less]
  simp only [holds]
  cases (ofSub a b).sign <;> cases (ofSub a b).overflow <;> rfl

theorem holds_lessEqual (a b : Word) : (ofSub a b).holds .lessEqual = a.sle b := by
  have hor : a.sle b = (a == b || a.slt b) := by
    rw [Bool.eq_iff_iff, Bool.or_eq_true, beq_iff_eq, BitVec.sle, BitVec.slt, decide_eq_true_iff,
      decide_eq_true_iff, ← BitVec.toInt_inj]
    omega
  rw [hor, ← holds_equal, ← holds_less]
  rfl

theorem holds_greater (a b : Word) : (ofSub a b).holds .greater = b.slt a := by
  have hnot : b.slt a = !a.sle b := by rw [BitVec.sle_eq_not_slt, Bool.not_not]
  rw [hnot, ← holds_lessEqual]
  simp only [holds]
  cases (ofSub a b).sign <;> cases (ofSub a b).overflow <;> cases (ofSub a b).zero <;> rfl

end Flags

theorem truncate_set (a : Word) (c : Bool) :
    Width.byte.truncate ((a &&& 0xFFFFFF00) ||| (if c then 1 else 0)) = truth c := by
  have hlow : ((a &&& 0xFFFFFF00) ||| (if c then 1 else 0)).setWidth 8 =
      if c then 1#8 else 0#8 := by
    rw [BitVec.setWidth_or, BitVec.setWidth_and]
    cases c <;> simp
  have hmod : ((a &&& 0xFFFFFF00) ||| (if c then 1 else 0)).toNat % 2 ^ 8 =
      (if c then 1#8 else 0#8).toNat := by
    rw [← hlow, BitVec.toNat_setWidth]
  show BitVec.ofNat 32 (_ % 2 ^ 8) = _
  rw [hmod]
  cases c <;> rfl

end Asm

/-! ### Operators -/

section Operators

variable {env : Environment} {m : Machine} {a b v : Word}

theorem run_compare (op : Arith) (c : Condition) :
    ∃ m', Instr.run env [.arith op .eax (.reg .edx), .set c, .extendByte] m = some m' ∧
      m'.eax = truth ((op.compute m.eax m.edx).2.holds c) ∧ m'.esp = m.esp ∧ m'.ebp = m.ebp ∧
      m'.memory = m.memory :=
  ⟨_, rfl, truncate_set _ _, rfl, rfl, rfl⟩

theorem BinOp.run_combine {op : BinOp} (hop : op ≠ .divide) (ha : m.eax = a) (hb : m.edx = b)
    (hv : op.apply a b = some v) :
    ∃ m', Instr.run env op.combine m = some m' ∧ m'.eax = v ∧ m'.esp = m.esp ∧ m'.ebp = m.ebp ∧
      m'.memory = m.memory := by
  subst ha hb
  cases op with
  | divide => exact absurd rfl hop
  | add | subtract | or =>
    cases hv
    exact ⟨_, rfl, rfl, rfl, rfl, rfl⟩
  | multiply =>
    cases hv
    exact ⟨_, rfl, rfl, rfl, rfl, rfl⟩
  | and =>
    cases hv
    exact run_compare .test .notZero
  | less =>
    cases hv
    rw [← Flags.holds_less]
    exact run_compare .cmp .less
  | greater =>
    cases hv
    rw [← Flags.holds_greater]
    exact run_compare .cmp .greater
  | lessEqual =>
    cases hv
    rw [← Flags.holds_lessEqual]
    exact run_compare .cmp .lessEqual
  | greaterEqual =>
    cases hv
    rw [← Flags.holds_greaterEqual]
    exact run_compare .cmp .greaterEqual
  | equal =>
    cases hv
    rw [← Flags.holds_equal]
    exact run_compare .cmp .equal
  | notEqual =>
    cases hv
    rw [← Flags.holds_notEqual]
    exact run_compare .cmp .notEqual

theorem run_divide (ha : m.eax = a) (hb : m.ecx = b) (hne : b ≠ 0) :
    ∃ m', Instr.run env [.arith .xor .edx (.reg .edx), .div .ecx] m = some m' ∧ m'.eax = a / b ∧
      m'.esp = m.esp ∧ m'.ebp = m.ebp ∧ m'.memory = m.memory := by
  subst ha hb
  have hpos : 0 < m.ecx.toNat := by
    rcases Nat.eq_zero_or_pos m.ecx.toNat with h | h
    · exact absurd (BitVec.eq_of_toNat_eq h) hne
    · exact h
  have hlt : m.eax.toNat / m.ecx.toNat < 2 ^ 32 :=
    Nat.lt_of_le_of_lt (Nat.div_le_self _ _) m.eax.isLt
  have hfits : ¬ (m.ecx.toNat = 0 ∨ 2 ^ 32 ≤ m.eax.toNat / m.ecx.toNat) := by omega
  refine ⟨{ m with
    eax := .ofNat 32 (m.eax.toNat / m.ecx.toNat)
    edx := .ofNat 32 (m.eax.toNat % m.ecx.toNat)
    flags := .ofLogic 0 }, ?_, ?_, rfl, rfl, rfl⟩
  · simp only [Instr.run, Instr.exec, Machine.get, Machine.set, Machine.operand, Arith.compute,
      BitVec.xor_self, Option.bind_some, BitVec.toNat_zero, Nat.zero_mul, Nat.zero_add]
    rw [if_neg hfits]
    rfl
  · refine BitVec.eq_of_toNat_eq ?_
    rw [BitVec.toNat_udiv, BitVec.toNat_ofNat, Nat.mod_eq_of_lt hlt]

theorem run_popOperands (env : Environment) (m : Machine) {r : Reg} (hr : r = .ecx ∨ r = .edx) :
    ∃ m', Instr.run env [.pop r, .pop .eax] m = some m' ∧
      m'.get r = m.memory.load .dword m.esp ∧ m'.eax = m.memory.load .dword (m.esp + 4) ∧
      m'.esp = m.esp + 4 + 4 ∧ m'.ebp = m.ebp ∧ m'.memory = m.memory := by
  rcases hr with rfl | rfl
  · exact ⟨_, rfl, rfl, rfl, rfl, rfl, rfl⟩
  · exact ⟨_, rfl, rfl, rfl, rfl, rfl, rfl⟩

/-- **An operator replaces its operands by their result.** -/
theorem BinOp.run_code (env : Environment) {op : BinOp} (hb : m.memory.load .dword m.esp = b)
    (ha : m.memory.load .dword (m.esp + 4) = a) (hv : op.apply a b = some v) :
    ∃ m', Instr.run env op.code m = some m' ∧ m'.esp = m.esp + 4 ∧ m'.ebp = m.ebp ∧
      m'.memory = m.memory.store .dword (m.esp + 4) v := by
  -- Both ways of computing the result leave it in the accumulator.
  obtain ⟨r, compute, hcode, hr, hcompute⟩ : ∃ r compute,
      op.code = [.pop r, .pop .eax] ++ compute ++ [.pushReg .eax] ∧ (r = .ecx ∨ r = .edx) ∧
      ∀ m₁ : Machine, m₁.get r = b → m₁.eax = a → ∃ m₂, Instr.run env compute m₁ = some m₂ ∧
        m₂.eax = v ∧ m₂.esp = m₁.esp ∧ m₂.ebp = m₁.ebp ∧ m₂.memory = m₁.memory := by
    by_cases hop : op = .divide
    · subst hop
      obtain ⟨hne, rfl⟩ : b ≠ 0 ∧ a / b = v := by simpa [BinOp.apply] using hv
      exact ⟨.ecx, [.arith .xor .edx (.reg .edx), .div .ecx], rfl, .inl rfl,
        fun m₁ hb ha => run_divide ha hb hne⟩
    · refine ⟨.edx, op.combine, ?_, .inr rfl, fun m₁ hb ha => run_combine hop ha hb hv⟩
      cases op <;> first | rfl | exact absurd rfl hop
  obtain ⟨m₁, hrun₁, hr₁, heax₁, hesp₁, hebp₁, hmem₁⟩ := run_popOperands env m hr
  obtain ⟨m₂, hrun₂, heax₂, hesp₂, hebp₂, hmem₂⟩ := hcompute m₁ (hr₁.trans hb) (heax₁.trans ha)
  refine ⟨m₂.push m₂.eax, ?_, ?_, ?_, ?_⟩
  · rw [hcode]
    exact Instr.run_append_eq_some.2 ⟨m₂, Instr.run_append_eq_some.2 ⟨m₁, hrun₁, hrun₂⟩, rfl⟩
  · show m₂.esp - 4 = m.esp + 4
    rw [hesp₂, hesp₁, BitVec.add_sub_cancel]
  · exact hebp₂.trans hebp₁
  · show m₂.memory.store .dword (m₂.esp - 4) m₂.eax = _
    rw [hesp₂, hesp₁, BitVec.add_sub_cancel, hmem₂, hmem₁, heax₂]

end Operators

/-! ### Steps -/

namespace Asm

/-- Whether the next instruction takes the stack pointer below zero. -/
def State.wraps (s : State) : Bool :=
  match s.rest with
  | .instr i :: _ => i.effect.any fun d => decide ((s.machine.esp.toNat : Int) < d)
  | _ => false

namespace Code

/-- The stack pointer never wraps from here on. -/
def Safe (code : Code) (env : Environment) (s : State) : Prop :=
  ∀ s', code.Steps env s s' → s'.wraps = false

variable {code : Code} {env : Environment} {rest : Code} {m m' : Machine}

theorem Safe.of_steps {s s' : State} (h : code.Safe env s) (hs : code.Steps env s s') :
    code.Safe env s' :=
  fun _ hs' => h _ (hs.trans hs')

theorem Safe.room {i : Instr} {d : Int} (h : code.Safe env ⟨.instr i :: rest, m⟩)
    (hi : i.effect = some d) : d ≤ m.esp.toNat := by
  have hnot := h _ .refl
  simp only [State.wraps, hi, Option.any_some, decide_eq_false_iff_not] at hnot
  omega

theorem step_of_exec {i : Instr} (h : i.exec env m = some m') :
    code.step env ⟨.instr i :: rest, m⟩ = some ⟨rest, m'⟩ := by
  cases i <;> first | cases h; done | exact congrArg (Option.map _) h

namespace Steps

theorem label (l : Label) : code.Steps env ⟨.label l :: rest, m⟩ ⟨rest, m⟩ :=
  .single rfl

theorem jump {l : Label} {target : Code} (h : code.target l = some target) :
    code.Steps env ⟨.instr (.jump l) :: rest, m⟩ ⟨target, m⟩ :=
  .single (congrArg (Option.map (State.mk · m)) h)

theorem jump_of_zero {i : Instr} {l : Label} {target : Code}
    (hi : i = .jumpZero l ∨ i = .jumpEqual l) (hz : m.flags.zero = true)
    (h : code.target l = some target) :
    code.Steps env ⟨.instr i :: rest, m⟩ ⟨target, m⟩ := by
  refine .single ?_
  rcases hi with rfl | rfl <;> simp [step, hz, h]

theorem pass_of_not_zero {i : Instr} {l : Label} (hi : i = .jumpZero l ∨ i = .jumpEqual l)
    (hz : m.flags.zero = false) : code.Steps env ⟨.instr i :: rest, m⟩ ⟨rest, m⟩ := by
  refine .single ?_
  rcases hi with rfl | rfl <;> simp [step, hz]

/-- Instructions without jumps, as a part of code. -/
theorem of_run {is : List Instr} :
    ∀ {m : Machine}, Instr.run env is m = some m' →
      code.Steps env ⟨ofInstrs is ++ rest, m⟩ ⟨rest, m'⟩ := by
  induction is with
  | nil =>
    intro m h
    cases h
    exact .refl
  | cons i is ih =>
    intro m h
    obtain ⟨m₁, hi, his⟩ := Option.bind_eq_some_iff.1 h
    exact .head (step_of_exec hi) (ih his)

end Steps

end Code

end Asm

/-! ### Variables -/

/-- Where the variable lies, for a frame base. -/
def Symbol.place (s : Symbol) (base : Word) : Word :=
  base - .ofInt 32 s.offset

namespace Symbol

variable {code rest : Code} {env : Environment} {m : Machine} {s : Symbol}

theorem steps_pushCode (hp : s.type.isPrimitive)
    (hsafe : code.Safe env ⟨Code.ofInstrs s.pushCode ++ rest, m⟩) :
    4 ≤ m.esp.toNat ∧ ∃ m', code.Steps env ⟨Code.ofInstrs s.pushCode ++ rest, m⟩ ⟨rest, m'⟩ ∧
      m'.esp = m.esp - 4 ∧ m'.ebp = m.ebp ∧
      m'.memory =
        m.memory.store .dword (m.esp - 4) (m.memory.load s.type.width (s.place m.ebp)) := by
  unfold pushCode pushValue at hsafe ⊢
  rw [if_pos hp] at hsafe ⊢
  by_cases hsize : s.type.alignedSize = 4
  · rw [if_pos hsize] at hsafe ⊢
    have hroom := hsafe.room (d := 4) rfl
    have hwidth : s.type.width = .dword := by rw [Ty.width, hsize]; rfl
    rw [hwidth]
    exact ⟨by omega, _, Code.Steps.of_run rfl, rfl, rfl, rfl⟩
  · rw [if_neg hsize] at hsafe ⊢
    have hload : code.Steps env
        ⟨Code.ofInstrs [.loadExtended s.type.width s.address, .pushReg .eax] ++ rest, m⟩
        ⟨.instr (.pushReg .eax) :: rest, _⟩ := .single rfl
    have hroom := (hsafe.of_steps hload).room (d := 4) rfl
    have hroom : (4 : Int) ≤ m.esp.toNat := hroom
    exact ⟨by omega, _, Code.Steps.of_run rfl, rfl, rfl, rfl⟩

theorem run_storeCode (env : Environment) (m : Machine) (hp : s.type.isPrimitive) :
    ∃ m', Instr.run env s.storeCode m = some m' ∧ m'.esp = m.esp + 4 ∧ m'.ebp = m.ebp ∧
      m'.memory = m.memory.store s.type.width (s.place m.ebp) (m.memory.load .dword m.esp) := by
  rw [storeCode, if_pos hp]
  exact ⟨_, rfl, rfl, rfl, rfl⟩

theorem exec_stepCode (s : Symbol) (env : Environment) (m : Machine) (op : StepOp) :
    ∃ d edge, (∀ v : Word, v + d = op.apply v) ∧
      Instr.run env (s.stepCode op) m = some (m.stepMemory s.type.width s.address d edge) := by
  cases op with
  | increment => exact ⟨1, _, fun v => rfl, rfl⟩
  | decrement => exact ⟨-1, _, fun v => (BitVec.sub_eq_add_neg v 1).symm, rfl⟩

theorem run_stepCode (env : Environment) (m : Machine) (op : StepOp) :
    ∃ m', Instr.run env (s.stepCode op) m = some m' ∧ m'.esp = m.esp ∧ m'.ebp = m.ebp ∧
      m'.memory = m.memory.store s.type.width (s.place m.ebp)
        (s.type.width.truncate (op.apply (m.memory.load s.type.width (s.place m.ebp)))) := by
  obtain ⟨d, edge, hd, hrun⟩ := s.exec_stepCode env m op
  refine ⟨_, hrun, rfl, rfl, ?_⟩
  rw [← hd]
  rfl

end Symbol

end GLang
