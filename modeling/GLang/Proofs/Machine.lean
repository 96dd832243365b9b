import Mathlib
import GLang.Asm.Code

/-!
# The machine

The part of a 32-bit x86 processor that compiled programs use: five registers, four flags and a
memory of bytes, little endian.

* `Memory.load`, `Memory.store`: accesses of one, two or four bytes.
* `Instr.exec`: what an instruction does that does not jump. A call does what the environment says.
* `Code.step`: one step of code, from a state that is a place in the code and a machine.
* `Instr.effect`: by how many bytes an instruction lowers the stack pointer. `Instr.exec_effect`
  says that it does so.
-/

namespace GLang.Asm

/-- The contents of a register. -/
abbrev Word := BitVec 32

abbrev Memory := Word → BitVec 8

/-! ### Memory -/

namespace Memory

/-- The number that `n` bytes from `a` on spell. -/
def read (mem : Memory) (a : Word) : Nat → Nat
  | 0 => 0
  | n + 1 => (mem a).toNat + 2 ^ 8 * read mem (a + 1) n

/-- Loads a value, zero-extended. -/
def load (mem : Memory) (w : Width) (a : Word) : Word :=
  .ofNat 32 (mem.read a w.bytes)

/-- Stores the low bytes of a value. -/
def store (mem : Memory) (w : Width) (a v : Word) : Memory := fun b =>
  if (b - a).toNat < w.bytes then v.extractLsb' (8 * (b - a).toNat) 8 else mem b

theorem store_of_le {mem : Memory} {w : Width} {a v b : Word} (h : w.bytes ≤ (b - a).toNat) :
    mem.store w a v b = mem b :=
  if_neg (Nat.not_lt.2 h)

theorem read_congr {mem mem' : Memory} {n : Nat} :
    ∀ {a : Word}, n ≤ 2 ^ 32 → (∀ b : Word, (b - a).toNat < n → mem b = mem' b) →
      mem.read a n = mem'.read a n := by
  induction n with
  | zero => intro a _ _; rfl
  | succ n ih =>
    intro a hn h
    have hhead : mem a = mem' a := h a (by simp)
    have htail : mem.read (a + 1) n = mem'.read (a + 1) n := by
      refine ih (by omega) fun b hb => h b ?_
      bv_omega
    rw [read, read, hhead, htail]

theorem load_congr {mem mem' : Memory} {w : Width} {a : Word}
    (h : ∀ b : Word, (b - a).toNat < w.bytes → mem b = mem' b) : mem.load w a = mem'.load w a := by
  have hw : w.bytes ≤ 2 ^ 32 := by cases w <;> decide
  rw [load, load, read_congr hw h]

end Memory

/-- What is left of a value that is stored in so many bytes. -/
def Width.truncate (w : Width) (v : Word) : Word :=
  .ofNat 32 (v.toNat % 2 ^ (8 * w.bytes))

theorem Memory.read_store (mem : Memory) {w : Width} (a v : Word) {n : Nat} :
    ∀ {k : Nat}, k + n ≤ w.bytes →
      (mem.store w a v).read (a + .ofNat 32 k) n = v.toNat / 2 ^ (8 * k) % 2 ^ (8 * n) := by
  have hw : w.bytes ≤ 4 := by cases w <;> decide
  induction n with
  | zero => intro k _; simp [read, Nat.mod_one]
  | succ n ih =>
    intro k hk
    have hplace : (a + .ofNat 32 k - a).toNat = k := by
      have hk' : (BitVec.ofNat 32 k).toNat = k := by
        rw [BitVec.toNat_ofNat]
        omega
      bv_omega
    have hbyte : mem.store w a v (a + .ofNat 32 k) = v.extractLsb' (8 * k) 8 := by
      rw [store, hplace, if_pos (by omega)]
    have hnext : a + .ofNat 32 k + 1 = a + .ofNat 32 (k + 1) := by
      rw [BitVec.add_assoc, BitVec.ofNat_add]
      rfl
    rw [read, hbyte, hnext, ih (by omega), BitVec.extractLsb'_toNat, Nat.shiftRight_eq_div_pow,
      Nat.mul_succ 8 k, Nat.pow_add, ← Nat.div_div_eq_div_mul, Nat.mul_succ 8 n,
      Nat.add_comm (8 * n), Nat.pow_add 2 8, Nat.mod_mul]

theorem Memory.load_store (mem : Memory) (w : Width) (a v : Word) :
    (mem.store w a v).load w a = w.truncate v := by
  have hread := Memory.read_store mem a v (w := w) (n := w.bytes) (k := 0) (by omega)
  simp only [BitVec.add_zero, Nat.mul_zero, Nat.pow_zero, Nat.div_one] at hread
  rw [load, hread, Width.truncate]

theorem Width.truncate_truncate (w : Width) (v : Word) :
    w.truncate (w.truncate v) = w.truncate v := by
  have hle : v.toNat % 2 ^ (8 * w.bytes) < 2 ^ 32 :=
    Nat.lt_of_le_of_lt (Nat.mod_le _ _) v.isLt
  rw [truncate, truncate, BitVec.toNat_ofNat, Nat.mod_eq_of_lt hle, Nat.mod_mod]

@[simp] theorem Width.truncate_dword (v : Word) : Width.dword.truncate v = v := by
  rw [truncate, Nat.mod_eq_of_lt (show v.toNat < 2 ^ (8 * Width.dword.bytes) from v.isLt)]
  simp

theorem Memory.read_lt (mem : Memory) {n : Nat} : ∀ a : Word, mem.read a n < 2 ^ (8 * n) := by
  induction n with
  | zero => exact fun a => Nat.one_pos
  | succ n ih =>
    intro a
    have hbyte := (mem a).isLt
    have hrest := ih (a + 1)
    rw [read, Nat.mul_succ, Nat.pow_add]
    omega

theorem Memory.read_mod (mem : Memory) {n k : Nat} :
    ∀ a : Word, mem.read a (n + k) % 2 ^ (8 * n) = mem.read a n := by
  induction n with
  | zero => exact fun a => Nat.mod_one _
  | succ n ih =>
    intro a
    have hbyte := (mem a).isLt
    rw [Nat.add_right_comm, read, read, Nat.mul_succ 8 n, Nat.add_comm (8 * n), Nat.pow_add 2 8,
      Nat.mod_mul, Nat.add_mul_mod_self_left, Nat.mod_eq_of_lt hbyte,
      Nat.add_mul_div_left _ _ (by decide), Nat.div_eq_of_lt hbyte, Nat.zero_add, ih]

theorem Memory.load_eq_truncate (mem : Memory) (w : Width) (a : Word) :
    mem.load w a = w.truncate (mem.load .dword a) := by
  have hlt : mem.read a 4 < 2 ^ 32 := mem.read_lt a
  obtain ⟨k, hk⟩ : ∃ k, w.bytes + k = 4 := ⟨4 - w.bytes, by cases w <;> rfl⟩
  have hmod : mem.read a 4 % 2 ^ (8 * w.bytes) = mem.read a w.bytes := by
    rw [← hk, mem.read_mod a]
  show BitVec.ofNat 32 (mem.read a w.bytes) =
    BitVec.ofNat 32 ((BitVec.ofNat 32 (mem.read a 4)).toNat % 2 ^ (8 * w.bytes))
  rw [BitVec.toNat_ofNat, Nat.mod_eq_of_lt hlt, hmod]

theorem Memory.eq_of_read_eq {mem mem' : Memory} {n : Nat} :
    ∀ {a b : Word}, mem.read a n = mem'.read a n → (b - a).toNat < n → mem b = mem' b := by
  induction n with
  | zero => exact fun _ hb => absurd hb (Nat.not_lt_zero _)
  | succ n ih =>
    intro a b h hb
    have hbyte := (mem a).isLt
    have hbyte' := (mem' a).isLt
    rw [read, read] at h
    by_cases hab : b = a
    · subst hab
      exact BitVec.eq_of_toNat_eq (by omega)
    · refine ih (a := a + 1) (by omega) ?_
      bv_omega

theorem Memory.eq_of_load_eq {mem mem' : Memory} {w : Width} {a b : Word}
    (h : mem.load w a = mem'.load w a) (hb : (b - a).toNat < w.bytes) : mem b = mem' b := by
  refine eq_of_read_eq ?_ hb
  have hfits : 2 ^ (8 * w.bytes) ≤ 2 ^ 32 := by cases w <;> decide
  have hlt := mem.read_lt a (n := w.bytes)
  have hlt' := mem'.read_lt a (n := w.bytes)
  have h := congrArg BitVec.toNat h
  rw [load, load, BitVec.toNat_ofNat, BitVec.toNat_ofNat] at h
  omega

/-! ### Registers and flags -/

structure Flags where
  zero : Bool
  sign : Bool
  carry : Bool
  overflow : Bool
  deriving DecidableEq, Repr

structure Machine where
  eax : Word
  ecx : Word
  edx : Word
  esp : Word
  ebp : Word
  flags : Flags
  memory : Memory

namespace Machine

def get (m : Machine) : Reg → Word
  | .eax => m.eax
  | .ecx => m.ecx
  | .edx => m.edx
  | .esp => m.esp
  | .ebp => m.ebp

def set (m : Machine) (r : Reg) (v : Word) : Machine :=
  match r with
  | .eax => { m with eax := v }
  | .ecx => { m with ecx := v }
  | .edx => { m with edx := v }
  | .esp => { m with esp := v }
  | .ebp => { m with ebp := v }

/-- Where a memory operand is. -/
def address (m : Machine) : Address → Word
  | .frame offset => m.ebp - .ofInt 32 offset
  | .indirect base => m.get base
  | .stack n => m.esp + .ofNat 32 n

/-- The value of an operand. -/
def operand (m : Machine) : Operand → Word
  | .reg r => m.get r
  | .imm n => .ofInt 32 n

def push (m : Machine) (v : Word) : Machine :=
  { m with esp := m.esp - 4, memory := m.memory.store .dword (m.esp - 4) v }

/-- The value on top of the stack. -/
def top (m : Machine) : Word :=
  m.memory.load .dword m.esp

end Machine

namespace Flags

/-- The flags after an addition. -/
def ofAdd (a b : Word) : Flags where
  zero := a + b == 0
  sign := (a + b).msb
  carry := decide (2 ^ 32 ≤ a.toNat + b.toNat)
  overflow := a.msb == b.msb && (a + b).msb != a.msb

/-- The flags after a subtraction or a comparison. -/
def ofSub (a b : Word) : Flags where
  zero := a - b == 0
  sign := (a - b).msb
  carry := a.ult b
  overflow := a.msb != b.msb && (a - b).msb != a.msb

/-- The flags after a bitwise operation. -/
def ofLogic (v : Word) : Flags where
  zero := v == 0
  sign := v.msb
  carry := false
  overflow := false

/-- The flags after a step by one, which leaves the carry; `edge` is the result of a step over the
end of the signed numbers. -/
def ofStep (f : Flags) (w : Width) (v edge : Word) : Flags where
  zero := v == 0
  sign := v.getLsbD (8 * w.bytes - 1)
  carry := f.carry
  overflow := v == edge

def holds (f : Flags) : Condition → Bool
  | .less => f.sign != f.overflow
  | .greater => !f.zero && f.sign == f.overflow
  | .lessEqual => f.zero || f.sign != f.overflow
  | .greaterEqual => f.sign == f.overflow
  | .equal => f.zero
  | .notEqual | .notZero => !f.zero

end Flags

/-! ### Instructions -/

/-- What surrounds a function: where labels lie, and what a called function does from the call to
its return. -/
structure Environment where
  place : Label → Word
  call : String → Machine → Option Machine

/-- The result and the flags of an arithmetic instruction. -/
def Arith.compute (op : Arith) (a b : Word) : Word × Flags :=
  match op with
  | .add => (a + b, .ofAdd a b)
  | .sub => (a - b, .ofSub a b)
  | .or => (a ||| b, .ofLogic (a ||| b))
  | .xor => (a ^^^ b, .ofLogic (a ^^^ b))
  | .cmp => (a, .ofSub a b)
  | .test => (a, .ofLogic (a &&& b))

/-- Steps a memory operand by `d`. -/
def Machine.stepMemory (m : Machine) (w : Width) (a : Address) (d : Word) (edge : Nat) : Machine :=
  let v := w.truncate (m.memory.load w (m.address a) + d)
  { m with
    memory := m.memory.store w (m.address a) v
    flags := m.flags.ofStep w v (.ofNat 32 edge) }

namespace Instr

/-- What an instruction does. Jumps and returns do nothing here; a division that has no result
fails. -/
def exec (env : Environment) (m : Machine) : Instr → Option Machine
  | pushImm n => some (m.push (.ofInt 32 n))
  | pushLabel l => some (m.push (env.place l))
  | pushReg r => some (m.push (m.get r))
  | pushMem a => some (m.push (m.memory.load .dword (m.address a)))
  | pop r => some ({ m with esp := m.esp + 4 }.set r m.top)
  | lea dst a => some (m.set dst (m.address a))
  | load dst a => some (m.set dst (m.memory.load .dword (m.address a)))
  | move dst src => some (m.set dst (m.get src))
  | store w a => some { m with memory := m.memory.store w (m.address a) m.eax }
  | loadExtended w a => some { m with eax := m.memory.load w (m.address a) }
  | extendByte => some { m with eax := Width.byte.truncate m.eax }
  | arith op dst src =>
    let (v, flags) := op.compute (m.get dst) (m.operand src)
    some { m.set dst v with flags }
  | mul r =>
    let product := m.eax.toNat * (m.get r).toNat
    let high : Word := .ofNat 32 (product / 2 ^ 32)
    some { m with
      eax := .ofNat 32 product
      edx := high
      flags := { m.flags with carry := high != 0, overflow := high != 0 } }
  | div r =>
    let dividend := m.edx.toNat * 2 ^ 32 + m.eax.toNat
    let divisor := (m.get r).toNat
    if divisor = 0 ∨ 2 ^ 32 ≤ dividend / divisor then none
    else some { m with
      eax := .ofNat 32 (dividend / divisor)
      edx := .ofNat 32 (dividend % divisor) }
  | set c =>
    let low : Word := if m.flags.holds c then 1 else 0
    some { m with eax := (m.eax &&& 0xFFFFFF00) ||| low }
  | inc w a => some (m.stepMemory w a 1 (2 ^ (8 * w.bytes - 1)))
  | dec w a => some (m.stepMemory w a (-1) (2 ^ (8 * w.bytes - 1) - 1))
  | call f => env.call f m
  | ret | jump _ | jumpZero _ | jumpEqual _ => none

/-- Runs instructions one after another. -/
def run (env : Environment) : List Instr → Machine → Option Machine
  | [], m => some m
  | i :: rest, m => (i.exec env m).bind (run env rest)

theorem run_append_eq_some {env : Environment} {is js : List Instr} {m m' : Machine} :
    run env (is ++ js) m = some m' ↔ ∃ m₁, run env is m = some m₁ ∧ run env js m₁ = some m' := by
  induction is generalizing m with
  | nil => simp [run]
  | cons i is ih =>
    rw [List.cons_append, run, run, Option.bind_eq_some_iff]
    simp only [ih, Option.bind_eq_some_iff]
    constructor
    · rintro ⟨m₁, hi, m₂, his, hjs⟩
      exact ⟨m₂, ⟨m₁, hi, his⟩, hjs⟩
    · rintro ⟨m₂, ⟨m₁, hi, his⟩, hjs⟩
      exact ⟨m₁, hi, m₂, his, hjs⟩

end Instr

/-! ### Code -/

/-- A place in code, given by the lines from there on, and a machine. -/
structure State where
  rest : Code
  machine : Machine

namespace Code

/-- The code from a label on. -/
def target (l : Label) : Code → Option Code
  | [] => none
  | line :: rest => if line = .label l then some (line :: rest) else target l rest

/-- One step of code. A return has no next state. -/
def step (code : Code) (env : Environment) (s : State) : Option State :=
  match s.rest with
  | [] | .cleanup _ :: _ | .verbatim _ :: _ | .instr .ret :: _ => none
  | .label _ :: rest => some ⟨rest, s.machine⟩
  | .instr (.jump l) :: _ => (code.target l).map (⟨·, s.machine⟩)
  | .instr (.jumpZero l) :: rest | .instr (.jumpEqual l) :: rest =>
    if s.machine.flags.zero then (code.target l).map (⟨·, s.machine⟩)
    else some ⟨rest, s.machine⟩
  | .instr i :: rest => (i.exec env s.machine).map (⟨rest, ·⟩)

/-- `s'` is reached from `s`. -/
def Steps (code : Code) (env : Environment) : State → State → Prop :=
  Relation.ReflTransGen fun s s' => code.step env s = some s'

end Code

/-! ### The stack pointer -/

/-- Whether a register has to do with the frame of a function. -/
def Reg.isFrame : Reg → Bool
  | .esp | .ebp => true
  | .eax | .ecx | .edx => false

/-- The bytes by which an instruction lowers the stack pointer, if it goes on to the next line,
moves the stack pointer by a fixed number of bytes and leaves the frame base. A call counts as
neutral. -/
def Instr.effect : Instr → Option Int
  | pushImm _ | pushLabel _ | pushReg _ | pushMem _ => some 4
  | pop r => if r.isFrame then none else some (-4)
  | arith .sub .esp (.imm n) => some n
  | arith .add .esp (.imm n) => some (-n)
  | arith _ r _ | lea r _ | load r _ | move r _ => if r.isFrame then none else some 0
  | store _ _ | loadExtended _ _ | extendByte | mul _ | div _ | set _ | inc _ _ | dec _ _
  | call _ => some 0
  | ret | jump _ | jumpZero _ | jumpEqual _ => none

/-- Called functions leave the stack pointer and the frame base as they were. -/
def Environment.Restores (env : Environment) : Prop :=
  ∀ f m m', env.call f m = some m' → m'.esp = m.esp ∧ m'.ebp = m.ebp

theorem Machine.set_effect {m : Machine} {r : Reg} {n d : Int}
    (hd : (if r.isFrame then none else some n) = some d) (v : Word) :
    n = d ∧ (m.set r v).esp = m.esp ∧ (m.set r v).ebp = m.ebp := by
  cases r with
  | esp | ebp => cases hd
  | eax | ecx | edx => exact ⟨Option.some.inj hd, rfl, rfl⟩

theorem sub_ofInt_zero (w : Word) : w - .ofInt 32 0 = w := by
  simp

theorem sub_ofInt_neg (w : Word) (n : Int) : w - .ofInt 32 (-n) = w + .ofInt 32 n := by
  rw [BitVec.ofInt_neg, BitVec.sub_eq_add_neg, BitVec.neg_neg]

/-- **An instruction moves the stack pointer by its effect.** -/
theorem Instr.exec_effect {env : Environment} (henv : env.Restores) {i : Instr} {d : Int}
    (hd : i.effect = some d) {m m' : Machine} (h : i.exec env m = some m') :
    m'.esp = m.esp - .ofInt 32 d ∧ m'.ebp = m.ebp := by
  cases i with
  | pushImm | pushLabel | pushReg | pushMem =>
    cases hd
    cases h
    exact ⟨rfl, rfl⟩
  | pop r =>
    cases h
    obtain ⟨rfl, hesp, hebp⟩ := Machine.set_effect (m := { m with esp := m.esp + 4 }) hd m.top
    rw [sub_ofInt_neg]
    exact ⟨hesp, hebp⟩
  | lea r a | load r a | move r s =>
    cases h
    obtain ⟨rfl, hesp, hebp⟩ := Machine.set_effect (m := m) hd _
    rw [sub_ofInt_zero]
    exact ⟨hesp, hebp⟩
  | arith op r src =>
    cases h
    by_cases hr : r.isFrame
    · -- Only additions and subtractions of constants have an effect on a frame register.
      cases r <;> cases op <;> cases src <;> simp [effect, Reg.isFrame] at hd hr
      · subst hd
        rw [sub_ofInt_neg]
        exact ⟨rfl, rfl⟩
      · subst hd
        exact ⟨rfl, rfl⟩
    · have hd' : (if r.isFrame then none else some 0) = some d := by
        cases r <;> simp_all [effect, Reg.isFrame]
      obtain ⟨rfl, hesp, hebp⟩ := Machine.set_effect (m := m) hd' _
      rw [sub_ofInt_zero]
      exact ⟨hesp, hebp⟩
  | store | loadExtended | extendByte | mul | set | inc | dec =>
    cases hd
    simp only [exec, Machine.stepMemory, Option.some.injEq] at h
    subst h
    rw [sub_ofInt_zero]
    exact ⟨rfl, rfl⟩
  | div r =>
    cases hd
    simp only [exec] at h
    split at h
    · cases h
    · cases h
      rw [sub_ofInt_zero]
      exact ⟨rfl, rfl⟩
  | call f =>
    cases hd
    rw [sub_ofInt_zero]
    exact henv f m m' h
  | ret | jump | jumpZero | jumpEqual => cases h

end GLang.Asm
