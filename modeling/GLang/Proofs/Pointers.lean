import GLang.Proofs.Simulation

/-!
# Expressions that read through addresses

The value of an expression that computes with words and addresses, by recursion on the tree and on
the bytes of memory: `Expr.evalIn`. An address is a word like any other, so what a dereference reads
may be a variable, a part of an array or the bytes of a literal, and nothing keeps two variables
apart.

The machine pushes words where the evaluation only has values. What it pushes lies below the bytes
that the evaluation reads, `Clear`, so the two agree on these all along: `Pushes`.

* `Expr.isScalar`: the expressions that never have an aggregate for a value.
* `Expr.room`: the bytes that the code of an expression pushes before it is done.
* `Expr.run_of_evalIn`: the code of an expression pushes its value.
-/

namespace GLang

open Asm

/-! ### Evaluation -/

/-- What an expression evaluates to. -/
structure Evaluation where
  value : Word
  /-- The memory afterwards. -/
  memory : Memory
  /-- The places that have been read through an address. -/
  reads : List (Word × Width)
  /-- The numbers that have been divided by. -/
  divisors : List Word

namespace Evaluation

/-- A value that is at hand. -/
def ofValue (v : Word) (mem : Memory) : Evaluation :=
  ⟨v, mem, [], []⟩

/-- Reads what is at the address that has been computed. -/
def deref (r : Evaluation) (w : Width) : Evaluation :=
  { r with value := r.memory.load w r.value, reads := r.reads ++ [(r.value, w)] }

/-- Combines two operands. A division by zero gives no matter what. -/
def combine (op : BinOp) (a b : Evaluation) : Evaluation where
  value := (op.apply a.value b.value).getD 0
  memory := b.memory
  reads := a.reads ++ b.reads
  divisors := a.divisors ++ b.divisors ++ if op = .divide then [b.value] else []

end Evaluation

theorem BinOp.apply_eq_some (op : BinOp) {a b : Word} (h : op = .divide → b ≠ 0) :
    op.apply a b = some ((op.apply a b).getD 0) := by
  cases op with
  | divide =>
    rw [BinOp.apply, if_neg (h rfl)]
    rfl
  | _ => rfl

/-- The value of a variable after a step. -/
def Symbol.stepped (s : Symbol) (op : StepOp) (base : Word) (mem : Memory) : Word :=
  s.type.width.truncate (op.apply (mem.load s.type.width (s.place base)))

namespace Expr

/-- The value of an expression in a frame with the given base, operands from left to right. Literals
count modulo `2 ^ 32`, a string literal is the address of its label, a cast changes nothing, a
dereference reads as many bytes as the type of its operand says, and an array that is dereferenced
is the address of its first byte. -/
def evalIn (ctx : Context) (place : Label → Word) (base : Word) :
    Expr → Memory → Option Evaluation
  | .int n, mem => some (.ofValue (.ofInt 32 n) mem)
  | .str raw, mem => (ctx.literals.label? raw).map fun l => .ofValue (place l) mem
  | .var x, mem =>
    (ctx.scopes.find? x).map fun s => .ofValue (mem.load s.type.width (s.place base)) mem
  | .addressOf x, mem => (ctx.scopes.find? x).map fun s => .ofValue (s.place base) mem
  | .cast e _, mem => e.evalIn ctx place base mem
  | .deref e, mem => do
    let t ← (e.readType ctx).toOption
    let address ← ((e.arraySymbol? ctx).map fun s => .ofValue (s.place base) mem) <|>
      e.evalIn ctx place base mem
    return address.deref t.width
  | .binary op l r, mem => do
    let a ← l.evalIn ctx place base mem
    let b ← r.evalIn ctx place base a.memory
    return .combine op a b
  | .step op .before (.var x), mem =>
    (ctx.scopes.find? x).map fun s => .ofValue (s.stepped op base mem)
      (mem.store s.type.width (s.place base) (s.stepped op base mem))
  | .step op .after (.var x), mem =>
    (ctx.scopes.find? x).map fun s => .ofValue (mem.load s.type.width (s.place base))
      (mem.store s.type.width (s.place base) (s.stepped op base mem))
  | _, _ => none

/-- Whether what is at the address of an expression is a primitive. -/
def readsPrimitive (ctx : Context) (e : Expr) : Bool :=
  match e.readType ctx with
  | .ok t => t.isPrimitive
  | .error _ => false

/-- Whether an expression is built from literals, primitive variables, addresses, casts, operators,
steps, and dereferences that read primitives; an array may stand right under a dereference. -/
def isScalar (ctx : Context) : Expr → Bool
  | .int _ | .str _ | .addressOf _ => true
  | .var x => (ctx.scopes.find? x).any (·.type.isPrimitive)
  | .cast e _ | .step _ _ e => e.isScalar ctx
  | .deref e => ((e.arraySymbol? ctx).isSome || e.isScalar ctx) && e.readsPrimitive ctx
  | .binary _ l r => l.isScalar ctx && r.isScalar ctx
  | .negate _ | .call _ _ => false

/-- The bytes by which the code of an expression lowers the stack pointer at most. -/
def room : Expr → Nat
  | .cast e _ | .deref e => e.room
  | .binary _ l r => max l.room (r.room + 4)
  | _ => 4

theorem four_le_room : ∀ e : Expr, 4 ≤ e.room
  | .cast e _ | .deref e => four_le_room e
  | .binary _ l _ => (four_le_room l).trans (Nat.le_max_left _ _)
  | .int _ | .str _ | .var _ | .addressOf _ | .negate _ | .step _ _ _ | .call _ _ => Nat.le_refl 4

variable {ctx : Context} {place : Label → Word} {base : Word} {mem : Memory}

theorem find?_of_lookup {x : String} {s : Symbol} (h : ctx.lookup x = .ok s) :
    ctx.scopes.find? x = some s := by
  unfold Context.lookup ScopeStack.lookup at h
  split at h
  · cases h
    assumption
  · cases h

theorem label?_of_label {raw : String} {l : Label} (h : ctx.literals.label raw = .ok l) :
    ctx.literals.label? raw = some l := by
  unfold LiteralPool.label at h
  split at h
  · cases h
    assumption
  · cases h

theorem isPrimitive_of_readsPrimitive {e : Expr} {t : Ty} (h : e.readsPrimitive ctx)
    (ht : e.readType ctx = .ok t) : t.isPrimitive := by
  rw [readsPrimitive, ht] at h
  exact h

theorem isPrimitive_of_isScalar {x : String} {s : Symbol} (h : (Expr.var x).isScalar ctx)
    (hx : ctx.lookup x = .ok s) : s.type.isPrimitive := by
  rw [isScalar, find?_of_lookup hx] at h
  exact h

theorem evalIn_derefArray {e : Expr} {t : Ty} {s : Symbol} (ht : e.readType ctx = .ok t)
    (hs : e.arraySymbol? ctx = some s) : (Expr.deref e).evalIn ctx place base mem =
      some ((Evaluation.ofValue (s.place base) mem).deref t.width) := by
  rw [evalIn, ht, hs]
  rfl

theorem evalIn_deref {e : Expr} {t : Ty} {a : Evaluation} (ht : e.readType ctx = .ok t)
    (hs : e.arraySymbol? ctx = none) (ha : e.evalIn ctx place base mem = some a) :
    (Expr.deref e).evalIn ctx place base mem = some (a.deref t.width) := by
  rw [evalIn, ht, hs, ha]
  rfl

theorem evalIn_binary {op : BinOp} {l r : Expr} {a b : Evaluation}
    (ha : l.evalIn ctx place base mem = some a)
    (hb : r.evalIn ctx place base a.memory = some b) :
    (Expr.binary op l r).evalIn ctx place base mem = some (.combine op a b) := by
  rw [evalIn, ha, Option.bind_eq_bind, Option.bind_some, hb]
  rfl

/-- **An expression that compiles has a value.** -/
theorem exists_evalIn (place : Label → Word) (base : Word) : ∀ {e : Expr} {code : List Instr}
    (mem : Memory), e.isScalar ctx → e.lower ctx = .ok code →
    ∃ r, e.evalIn ctx place base mem = some r
  | .int n, code, mem, _, _ => ⟨_, by rw [evalIn]⟩
  | .str raw, code, mem, _, h => by
    obtain ⟨l, hl, -⟩ := lower_str.1 h
    exact ⟨_, by rw [evalIn, label?_of_label hl]; rfl⟩
  | .var x, code, mem, _, h => by
    obtain ⟨s, hx, -⟩ := lower_var.1 h
    exact ⟨_, by rw [evalIn, find?_of_lookup hx]; rfl⟩
  | .addressOf x, code, mem, _, h => by
    obtain ⟨s, hx, -⟩ := lower_addressOf.1 h
    exact ⟨_, by rw [evalIn, find?_of_lookup hx]; rfl⟩
  | .cast e target, code, mem, hw, h => by
    rw [evalIn]
    exact exists_evalIn place base (e := e) mem (by simpa [isScalar] using hw) (lower_cast.1 h)
  | .deref e, code, mem, hw, h => by
    obtain ⟨t, ht, ⟨s, hs, -⟩ | ⟨hnone, address, ha, -⟩⟩ := lower_deref.1 h
    · exact ⟨_, evalIn_derefArray ht hs⟩
    · have he : e.isScalar ctx := by
        simp only [isScalar, hnone, Option.isSome_none, Bool.false_or, Bool.and_eq_true] at hw
        exact hw.1
      obtain ⟨a, heval⟩ := exists_evalIn place base mem he ha
      exact ⟨_, evalIn_deref ht hnone heval⟩
  | .binary op l r, code, mem, hw, h => by
    obtain ⟨left, right, hleft, hright, -⟩ := lower_binary.1 h
    obtain ⟨hl, hr⟩ : l.isScalar ctx ∧ r.isScalar ctx := by simpa [isScalar] using hw
    obtain ⟨a, ha⟩ := exists_evalIn place base mem hl hleft
    obtain ⟨b, hb⟩ := exists_evalIn place base a.memory hr hright
    exact ⟨_, evalIn_binary ha hb⟩
  | .step op .before e, code, mem, _, h => by
    obtain ⟨step, value, hstep, -, -⟩ := lower_stepBefore.1 h
    obtain ⟨x, s, rfl, hx, -, -⟩ := stepCode_eq_ok.1 hstep
    exact ⟨_, by rw [evalIn, find?_of_lookup hx]; rfl⟩
  | .step op .after e, code, mem, _, h => by
    obtain ⟨value, step, -, hstep, -⟩ := lower_stepAfter.1 h
    obtain ⟨x, s, rfl, hx, -, -⟩ := stepCode_eq_ok.1 hstep
    exact ⟨_, by rw [evalIn, find?_of_lookup hx]; rfl⟩

end Expr

/-! ### The stack below, the bytes above -/

/-- All bytes of an access lie at or above `limit`. -/
def Clear (limit : Nat) (a : Word) (w : Width) : Prop :=
  ∀ b : Word, (b - a).toNat < w.bytes → limit ≤ b.toNat

/-- Above `limit` the memory of the machine is `mem`. -/
def Agrees (limit : Nat) (m : Machine) (mem : Memory) : Prop :=
  ∀ a : Word, limit ≤ a.toNat → m.memory a = mem a

/-- From `m` to `m'` the value `v` has been pushed. Above `limit` the memory is now `mem`, and what
was on the stack below `limit` is still there. -/
structure Pushes (limit : Nat) (m m' : Machine) (v : Word) (mem : Memory) : Prop where
  esp : m'.esp.toNat + 4 = m.esp.toNat
  ebp : m'.ebp = m.ebp
  top : m'.top = v
  stack : ∀ a : Word, m.esp.toNat ≤ a.toNat → a.toNat < limit → m'.memory a = m.memory a
  agrees : Agrees limit m' mem

section Stack

variable {limit : Nat} {m m₁ m₂ m' : Machine} {mem : Memory} {v : Word} {env : Environment}

theorem Agrees.load_eq (h : Agrees limit m mem) {a : Word} {w : Width} (hc : Clear limit a w) :
    m.memory.load w a = mem.load w a :=
  Memory.load_congr fun b hb => h b (hc b hb)

theorem Pushes.of_store (h : Agrees limit m mem) (hroom : 4 ≤ m.esp.toNat)
    (hlimit : m.esp.toNat ≤ limit) (hesp : m'.esp = m.esp - 4) (hebp : m'.ebp = m.ebp)
    (hmem : m'.memory = m.memory.store .dword (m.esp - 4) v) : Pushes limit m m' v mem := by
  have hother : ∀ a : Word, m.esp.toNat ≤ a.toNat → m'.memory a = m.memory a := by
    intro a ha
    rw [hmem]
    refine Memory.store_of_outside ?_ (.inr ?_) <;> simp only [Width.bytes] <;> bv_omega
  refine ⟨by rw [hesp]; bv_omega, hebp, ?_, fun a ha _ => hother a ha, fun a ha => ?_⟩
  · rw [Machine.top, hesp, hmem, Memory.load_store, Width.truncate_dword]
  · rw [hother a (by omega), h a ha]

theorem run_pushValue (env : Environment) (m : Machine) (t : Ty) (a : Address) :
    ∃ m', Instr.run env (pushValue t a) m = some m' ∧ m'.esp = m.esp - 4 ∧ m'.ebp = m.ebp ∧
      m'.memory = m.memory.store .dword (m.esp - 4) (m.memory.load t.width (m.address a)) := by
  unfold pushValue
  split
  · rename_i hsize
    have hwidth : t.width = .dword := by rw [Ty.width, hsize]; rfl
    rw [hwidth]
    exact ⟨_, rfl, rfl, rfl, rfl⟩
  · exact ⟨_, rfl, rfl, rfl, rfl⟩

theorem run_popIndirect (env : Environment) (m : Machine) {t : Ty} (hp : t.isPrimitive) :
    ∃ m', Instr.run env (.pop .eax :: pushIndirect t) m = some m' ∧ m'.esp = m.esp ∧
      m'.ebp = m.ebp ∧ m'.memory = m.memory.store .dword m.esp (m.memory.load t.width m.top) := by
  obtain ⟨m', hrun, hesp, hebp, hmem⟩ :=
    run_pushValue env { m with esp := m.esp + 4, eax := m.top } t (.indirect .eax)
  refine ⟨m', ?_, hesp.trans (BitVec.add_sub_cancel _ _), hebp, ?_⟩
  · rw [pushIndirect, if_pos hp]
    exact hrun
  · rw [hmem]
    show m.memory.store .dword (m.esp + 4 - 4) _ = _
    rw [BitVec.add_sub_cancel]
    rfl

theorem run_leaIndirect (env : Environment) (m : Machine) (s : Symbol) {t : Ty}
    (hp : t.isPrimitive) :
    ∃ m', Instr.run env (.lea .eax s.address :: pushIndirect t) m = some m' ∧
      m'.esp = m.esp - 4 ∧ m'.ebp = m.ebp ∧
      m'.memory = m.memory.store .dword (m.esp - 4) (m.memory.load t.width (s.place m.ebp)) := by
  obtain ⟨m', hrun, hesp, hebp, hmem⟩ :=
    run_pushValue env { m with eax := s.place m.ebp } t (.indirect .eax)
  refine ⟨m', ?_, hesp, hebp, hmem⟩
  rw [pushIndirect, if_pos hp]
  exact hrun

theorem Symbol.run_pushCode (env : Environment) (m : Machine) {s : Symbol}
    (hp : s.type.isPrimitive) :
    ∃ m', Instr.run env s.pushCode m = some m' ∧ m'.esp = m.esp - 4 ∧ m'.ebp = m.ebp ∧
      m'.memory = m.memory.store .dword (m.esp - 4)
        (m.memory.load s.type.width (s.place m.ebp)) := by
  rw [pushCode, if_pos hp]
  exact run_pushValue env m s.type s.address

theorem Pushes.load_of_pushes {a b : Word} {mem₁ mem₂ : Memory} (h₁ : Pushes limit m m₁ a mem₁)
    (h₂ : Pushes limit m₁ m₂ b mem₂) (hlimit : m.esp.toNat ≤ limit) :
    m₂.memory.load .dword (m₂.esp + 4) = a := by
  have hesp₁ := h₁.esp
  have hesp₂ := h₂.esp
  have hplace : m₂.esp + 4 = m₁.esp := by bv_omega
  rw [hplace, ← h₁.top]
  refine Memory.load_congr_of_le ?_ fun c hc hlt => h₂.stack c hc ?_
  · simp only [Width.bytes]
    omega
  · simp only [Width.bytes] at hlt
    omega

theorem Pushes.replace {a : Word} (h : Pushes limit m m₁ a mem) (hlimit : m.esp.toNat ≤ limit)
    (hesp : m'.esp = m₁.esp) (hebp : m'.ebp = m₁.ebp)
    (hmem : m'.memory = m₁.memory.store .dword m₁.esp v) : Pushes limit m m' v mem := by
  have hesp₁ := h.esp
  have hother : ∀ b : Word, m.esp.toNat ≤ b.toNat → m'.memory b = m₁.memory b := by
    intro b hb
    rw [hmem]
    refine Memory.store_of_outside ?_ (.inr ?_) <;> simp only [Width.bytes] <;> omega
  refine ⟨by rw [hesp]; exact hesp₁, hebp.trans h.ebp, ?_, fun b hb hlt => ?_, fun b hb => ?_⟩
  · rw [Machine.top, hesp, hmem, Memory.load_store, Width.truncate_dword]
  · rw [hother b hb, h.stack b hb hlt]
  · rw [hother b (by omega), h.agrees b hb]

theorem Pushes.merge {a b : Word} {mem₁ mem₂ : Memory} (h₁ : Pushes limit m m₁ a mem₁)
    (h₂ : Pushes limit m₁ m₂ b mem₂) (hlimit : m.esp.toNat ≤ limit) (hesp : m'.esp = m₂.esp + 4)
    (hebp : m'.ebp = m₂.ebp) (hmem : m'.memory = m₂.memory.store .dword (m₂.esp + 4) v) :
    Pushes limit m m' v mem₂ := by
  have hesp₁ := h₁.esp
  have hesp₂ := h₂.esp
  have hplace : m₂.esp + 4 = m₁.esp := by bv_omega
  rw [hplace] at hesp hmem
  have hother : ∀ c : Word, m.esp.toNat ≤ c.toNat → m'.memory c = m₂.memory c := by
    intro c hc
    rw [hmem]
    refine Memory.store_of_outside ?_ (.inr ?_) <;> simp only [Width.bytes] <;> omega
  refine ⟨by rw [hesp]; exact hesp₁, hebp.trans (h₂.ebp.trans h₁.ebp), ?_, fun c hc hlt => ?_,
    fun c hc => ?_⟩
  · rw [Machine.top, hesp, hmem, Memory.load_store, Width.truncate_dword]
  · rw [hother c hc, h₂.stack c (by omega) hlt, h₁.stack c hc hlt]
  · rw [hother c (by omega), h₂.agrees c hc]

theorem Agrees.step (h : Agrees limit m mem) {s : Symbol}
    (hc : Clear limit (s.place m.ebp) s.type.width) (op : StepOp) (env : Environment) :
    ∃ m', Instr.run env (s.stepCode op) m = some m' ∧ m'.esp = m.esp ∧ m'.ebp = m.ebp ∧
      (∀ a : Word, a.toNat < limit → m'.memory a = m.memory a) ∧
      Agrees limit m' (mem.store s.type.width (s.place m.ebp) (s.stepped op m.ebp mem)) := by
  obtain ⟨m', hrun, hesp, hebp, hmem⟩ := s.run_stepCode env m op
  rw [h.load_eq hc] at hmem
  refine ⟨m', hrun, hesp, hebp, fun a ha => ?_, fun a ha => ?_⟩
  · rw [hmem]
    refine Memory.store_of_le (Nat.not_lt.1 fun hlt => ?_)
    exact absurd (hc a hlt) (by omega)
  · rw [hmem]
    unfold Memory.store
    rw [h a ha]
    rfl

end Stack

/-! ### Expressions -/

/-- The primitive variables that can be seen lie at or above `limit`. -/
def Context.VariablesClear (ctx : Context) (limit : Nat) (base : Word) : Prop :=
  ∀ x s, ctx.lookup x = .ok s → s.type.isPrimitive → Clear limit (s.place base) s.type.width

namespace Expr

variable {ctx : Context} {env : Environment} {limit : Nat}

/-- **The code of an expression pushes its value,** and does to the bytes above `limit` what the
evaluation does to memory. -/
theorem pushes_of_evalIn {base : Word} (hvars : ctx.VariablesClear limit base) :
    ∀ {e : Expr} {code : List Instr} {m : Machine} {mem : Memory} {r : Evaluation},
      e.isScalar ctx → e.lower ctx = .ok code → e.evalIn ctx env.place base mem = some r →
      m.ebp = base → Agrees limit m mem → m.esp.toNat ≤ limit → e.room ≤ m.esp.toNat →
      (∀ q ∈ r.reads, Clear limit q.1 q.2) → (∀ d ∈ r.divisors, d ≠ 0) →
      ∃ m', Instr.run env code m = some m' ∧ Pushes limit m m' r.value r.memory
  | .int n, code, m, mem, r, _, h, he, hebp, hagrees, hlimit, hroom, _, _ => by
    cases lower_int.1 h
    rw [evalIn] at he
    cases he
    exact ⟨_, rfl, .of_store hagrees hroom hlimit rfl rfl rfl⟩
  | .str raw, code, m, mem, r, _, h, he, hebp, hagrees, hlimit, hroom, _, _ => by
    obtain ⟨l, hl, rfl⟩ := lower_str.1 h
    rw [evalIn, label?_of_label hl] at he
    cases he
    exact ⟨_, rfl, .of_store hagrees hroom hlimit rfl rfl rfl⟩
  | .var x, code, m, mem, r, hw, h, he, hebp, hagrees, hlimit, hroom, _, _ => by
    obtain ⟨s, hx, rfl⟩ := lower_var.1 h
    rw [evalIn, find?_of_lookup hx] at he
    cases he
    have hp := isPrimitive_of_isScalar hw hx
    obtain ⟨m', hrun, hesp, hebp', hmem⟩ := Symbol.run_pushCode env m hp
    rw [hebp, hagrees.load_eq (hvars x s hx hp)] at hmem
    exact ⟨m', hrun, .of_store hagrees hroom hlimit hesp hebp' hmem⟩
  | .addressOf x, code, m, mem, r, _, h, he, hebp, hagrees, hlimit, hroom, _, _ => by
    obtain ⟨s, hx, rfl⟩ := lower_addressOf.1 h
    rw [evalIn, find?_of_lookup hx] at he
    cases he
    subst hebp
    exact ⟨_, rfl, .of_store hagrees hroom hlimit rfl rfl rfl⟩
  | .cast e target, code, m, mem, r, hw, h, he, hebp, hagrees, hlimit, hroom, hreads, hdivs => by
    rw [evalIn] at he
    exact pushes_of_evalIn hvars (e := e) (by simpa [isScalar] using hw) (lower_cast.1 h) he hebp
      hagrees hlimit hroom hreads hdivs
  | .deref e, code, m, mem, r, hw, h, he, hebp, hagrees, hlimit, hroom, hreads, hdivs => by
    obtain ⟨harray, hp⟩ : ((e.arraySymbol? ctx).isSome ∨ e.isScalar ctx) ∧
        e.readsPrimitive ctx := by simpa [isScalar] using hw
    obtain ⟨t, ht, ⟨s, hs, rfl⟩ | ⟨hnone, address, ha, rfl⟩⟩ := lower_deref.1 h
    · -- An array is addressed where it lies.
      rw [evalIn_derefArray ht hs] at he
      cases he
      have hclear : Clear limit (s.place base) t.width :=
        hreads (s.place base, t.width) List.mem_cons_self
      obtain ⟨m', hrun, hesp, hebp', hmem⟩ :=
        run_leaIndirect env m s (isPrimitive_of_readsPrimitive hp ht)
      rw [hebp, hagrees.load_eq hclear] at hmem
      exact ⟨m', hrun, .of_store hagrees ((four_le_room e).trans hroom) hlimit hesp hebp' hmem⟩
    · have hscalar : e.isScalar ctx := harray.resolve_left (by simp [hnone])
      obtain ⟨a, heval⟩ := exists_evalIn env.place base mem hscalar ha
      rw [evalIn_deref ht hnone heval] at he
      cases he
      obtain ⟨m₁, hrun₁, hpush⟩ := pushes_of_evalIn hvars hscalar ha heval hebp hagrees hlimit hroom
        (fun q hq => hreads q (List.mem_append_left _ hq)) hdivs
      have hclear : Clear limit a.value t.width :=
        hreads (a.value, t.width) (List.mem_append_right _ List.mem_cons_self)
      obtain ⟨m', hrun, hesp, hebp', hmem⟩ :=
        run_popIndirect env m₁ (isPrimitive_of_readsPrimitive hp ht)
      rw [hpush.top, hpush.agrees.load_eq hclear] at hmem
      exact ⟨m', Instr.run_append_eq_some.2 ⟨m₁, hrun₁, hrun⟩,
        hpush.replace hlimit hesp hebp' hmem⟩
  | .binary op l r, code, m, mem, _, hw, h, he, hebp, hagrees, hlimit, hroom, hreads, hdivs => by
    obtain ⟨left, right, hleft, hright, rfl⟩ := lower_binary.1 h
    obtain ⟨hl, hr⟩ : l.isScalar ctx ∧ r.isScalar ctx := by simpa [isScalar] using hw
    obtain ⟨a, ha⟩ := exists_evalIn env.place base mem hl hleft
    obtain ⟨b, hb⟩ := exists_evalIn env.place base a.memory hr hright
    rw [evalIn_binary ha hb] at he
    cases he
    obtain ⟨hroomLeft, hroomRight⟩ : l.room ≤ m.esp.toNat ∧ r.room + 4 ≤ m.esp.toNat :=
      Nat.max_le.1 hroom
    obtain ⟨hreadsLeft, hreadsRight⟩ := List.forall_mem_append.1 hreads
    obtain ⟨hdivs, hzero⟩ := List.forall_mem_append.1 hdivs
    obtain ⟨hdivsLeft, hdivsRight⟩ := List.forall_mem_append.1 hdivs
    obtain ⟨m₁, hrun₁, hpush₁⟩ := pushes_of_evalIn hvars hl hleft ha hebp hagrees hlimit hroomLeft
      hreadsLeft hdivsLeft
    have hesp₁ := hpush₁.esp
    obtain ⟨m₂, hrun₂, hpush₂⟩ := pushes_of_evalIn hvars hr hright hb (hpush₁.ebp.trans hebp)
      hpush₁.agrees (by omega) (by omega) hreadsRight hdivsRight
    have happly := op.apply_eq_some (a := a.value) (b := b.value) fun hop =>
      hzero _ (by rw [if_pos hop]; exact List.mem_cons_self)
    obtain ⟨m₃, hrun₃, hesp₃, hebp₃, hmem₃⟩ :=
      op.run_code env hpush₂.top (hpush₁.load_of_pushes hpush₂ hlimit) happly
    refine ⟨m₃, ?_, hpush₁.merge hpush₂ hlimit hesp₃ hebp₃ hmem₃⟩
    exact Instr.run_append_eq_some.2 ⟨m₂, Instr.run_append_eq_some.2 ⟨m₁, hrun₁, hrun₂⟩, hrun₃⟩
  | .step op .before e, code, m, mem, r, _, h, he, hebp, hagrees, hlimit, hroom, _, _ => by
    obtain ⟨step, value, hstep, hvalue, rfl⟩ := lower_stepBefore.1 h
    obtain ⟨x, s, rfl, hx, hp, rfl⟩ := stepCode_eq_ok.1 hstep
    obtain ⟨s', hx', rfl⟩ := lower_var.1 hvalue
    cases hx.symm.trans hx'
    rw [evalIn, find?_of_lookup hx] at he
    cases he
    subst hebp
    have hclear := hvars x s hx hp
    obtain ⟨m₁, hrun₁, hesp₁, hebp₁, hbelow, hagrees₁⟩ := hagrees.step hclear op env
    obtain ⟨m₂, hrun₂, hesp₂, hebp₂, hmem₂⟩ := Symbol.run_pushCode env m₁ hp
    have hnew : (mem.store s.type.width (s.place m.ebp) (s.stepped op m.ebp mem)).load s.type.width
        (s.place m.ebp) = s.stepped op m.ebp mem := by
      rw [Memory.load_store, Symbol.stepped, Width.truncate_truncate]
    rw [hebp₁, hagrees₁.load_eq hclear, hnew] at hmem₂
    have hpush := Pushes.of_store hagrees₁ (hesp₁ ▸ hroom) (hesp₁ ▸ hlimit) hesp₂ hebp₂ hmem₂
    refine ⟨m₂, Instr.run_append_eq_some.2 ⟨m₁, hrun₁, hrun₂⟩, hesp₁ ▸ hpush.esp,
      hebp₂.trans hebp₁, hpush.top, fun a ha hlt => ?_, hpush.agrees⟩
    rw [hpush.stack a (hesp₁ ▸ ha) hlt, hbelow a hlt]
  | .step op .after e, code, m, mem, r, _, h, he, hebp, hagrees, hlimit, hroom, _, _ => by
    obtain ⟨value, step, hvalue, hstep, rfl⟩ := lower_stepAfter.1 h
    obtain ⟨x, s, rfl, hx, hp, rfl⟩ := stepCode_eq_ok.1 hstep
    obtain ⟨s', hx', rfl⟩ := lower_var.1 hvalue
    cases hx.symm.trans hx'
    rw [evalIn, find?_of_lookup hx] at he
    cases he
    subst hebp
    have hclear := hvars x s hx hp
    obtain ⟨m₁, hrun₁, hesp₁, hebp₁, hmem₁⟩ := Symbol.run_pushCode env m hp
    rw [hagrees.load_eq hclear] at hmem₁
    have hpush := Pushes.of_store hagrees hroom hlimit hesp₁ hebp₁ hmem₁
    rw [← hebp₁] at hclear
    obtain ⟨m₂, hrun₂, hesp₂, hebp₂, hbelow, hagrees₂⟩ := hpush.agrees.step hclear op env
    rw [hebp₁] at hagrees₂
    have hesp := hpush.esp
    refine ⟨m₂, Instr.run_append_eq_some.2 ⟨m₁, hrun₁, hrun₂⟩, hesp₂ ▸ hpush.esp,
      hebp₂.trans hebp₁, ?_, fun a ha hlt => ?_, hagrees₂⟩
    · refine Eq.trans ?_ hpush.top
      rw [Machine.top, Machine.top, hesp₂]
      refine Memory.load_congr_of_le ?_ fun a _ hlt => hbelow a ?_
      · simp only [Width.bytes]
        omega
      · simp only [Width.bytes] at hlt
        omega
    · rw [hbelow a hlt, hpush.stack a ha hlt]

/-- **Expressions are compiled correctly, also those that read through addresses.** An expression
that compiles has a value. From any state in which the variables and all places that the evaluation
reads lie at or above the stack pointer, no divisor is zero and there is room on the stack, its code
pushes one word, that value. Above the old stack pointer the memory is then what the evaluation
leaves. -/
theorem run_of_evalIn {e : Expr} {code : List Instr} (hw : e.isScalar ctx)
    (h : e.lower ctx = .ok code) (env : Environment) (m : Machine) :
    ∃ r, e.evalIn ctx env.place m.ebp m.memory = some r ∧
      (ctx.VariablesClear m.esp.toNat m.ebp → (∀ q ∈ r.reads, Clear m.esp.toNat q.1 q.2) →
        (∀ d ∈ r.divisors, d ≠ 0) → e.room ≤ m.esp.toNat →
        ∃ m', Instr.run env code m = some m' ∧ m'.esp = m.esp - 4 ∧ m'.ebp = m.ebp ∧
          m'.top = r.value ∧ ∀ a : Word, m.esp.toNat ≤ a.toNat → m'.memory a = r.memory a) := by
  obtain ⟨r, hr⟩ := exists_evalIn env.place m.ebp m.memory hw h
  refine ⟨r, hr, fun hvars hreads hdivs hroom => ?_⟩
  obtain ⟨m', hrun, hpush⟩ := pushes_of_evalIn hvars hw h hr rfl (fun _ _ => rfl) (Nat.le_refl _)
    hroom hreads hdivs
  have hesp := hpush.esp
  exact ⟨m', hrun, by bv_omega, hpush.ebp, hpush.top, hpush.agrees⟩

/-- A frame with a pointer, an array and a byte. -/
def sampleContext : Context where
  scopes :=
    { scopes :=
        [{ id := 0
           kind := .function
           symbols := [⟨"p", .pointer .int32, 4⟩, ⟨"a", .array .byte 4, 8⟩, ⟨"x", .byte, 12⟩]
           start := 0
           cursor := 12 }] }

/-- A machine in which every byte is the lowest byte of its address. -/
def sampleMachine : Machine where
  eax := 0
  ecx := 0
  edx := 0
  esp := 0xF00
  ebp := 0x1000
  flags := .ofLogic 0
  memory a := a.setWidth 8

theorem variablesClear_sample : sampleContext.VariablesClear 0xF00 0x1000 := by
  intro x s hx hp b hb
  have hmem : s ∈ [⟨"p", .pointer .int32, 4⟩, ⟨"a", .array .byte 4, 8⟩, ⟨"x", .byte, 12⟩] := by
    have hfind := find?_of_lookup hx
    obtain ⟨scope, hscope, hget⟩ := List.exists_of_findSome?_eq_some hfind
    obtain rfl := List.mem_singleton.1 hscope
    exact List.mem_of_find?_eq_some hget
  simp only [List.mem_cons, List.not_mem_nil, or_false] at hmem
  rcases hmem with rfl | rfl | rfl
  · replace hb : (b - 0xFFC).toNat < 4 := hb
    bv_omega
  · cases hp
  · replace hb : (b - 0xFF4).toNat < 1 := hb
    bv_omega

/-- The code of `*(p + 4) + *a / x++` pushes its value and steps `x`. -/
theorem run_of_evalIn_sample : ∃ code m',
    (Expr.binary .add (.deref (.binary .add (.var "p") (.int 4)))
      (.binary .divide (.deref (.var "a")) (.step .increment .after (.var "x")))).lower
        sampleContext = .ok code ∧
    Instr.run ⟨fun _ => 0, fun _ _ => none⟩ code sampleMachine = some m' ∧
    m'.esp = 0xEFC ∧ m'.top = 0x03020101 ∧ m'.memory 0xFF4 = 0xF5 := by
  obtain ⟨r, hr, hrun⟩ := @run_of_evalIn sampleContext
    (.binary .add (.deref (.binary .add (.var "p") (.int 4)))
      (.binary .divide (.deref (.var "a")) (.step .increment .after (.var "x"))))
    _ (by decide +kernel) rfl ⟨fun _ => 0, fun _ _ => none⟩ sampleMachine
  have heval : ((Expr.binary .add (.deref (.binary .add (.var "p") (.int 4)))
      (.binary .divide (.deref (.var "a")) (.step .increment .after (.var "x")))).evalIn
        sampleContext (fun _ => 0) 0x1000 sampleMachine.memory).map
      (fun r => (r.value, r.reads, r.divisors, r.memory 0xFF4)) =
        some (0x03020101, [(0xFFFEFE00, .dword), (0xFF8, .byte)], [0xF4], 0xF5) := by
    decide +kernel
  rw [show sampleMachine.ebp = 0x1000 from rfl] at hr
  rw [hr, Option.map_some, Option.some.injEq] at heval
  simp only [Prod.mk.injEq] at heval
  obtain ⟨hvalue, hreads, hdivisors, hstepped⟩ := heval
  have hclear : ∀ q ∈ r.reads, Clear 0xF00 q.1 q.2 := by
    rw [hreads]
    simp only [List.forall_mem_cons, List.not_mem_nil, false_imp_iff, implies_true, and_true]
    constructor
    · intro b hb
      replace hb : (b - 0xFFFEFE00).toNat < 4 := hb
      bv_omega
    · intro b hb
      replace hb : (b - 0xFF8).toNat < 1 := hb
      bv_omega
  have hdivs : ∀ d ∈ r.divisors, d ≠ 0 := by
    rw [hdivisors]
    simp
  obtain ⟨m', hm', hesp, -, htop, hmemory⟩ := hrun variablesClear_sample hclear hdivs (by decide)
  exact ⟨_, m', rfl, hm', hesp, htop.trans hvalue, (hmemory _ (by decide)).trans hstepped⟩

end Expr

end GLang
