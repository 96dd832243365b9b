import GLang.Asm.Label

/-!
# Instructions

The part of the 32-bit x86 instruction set that compiled programs use, as data, with its NASM text.
The accumulator is `eax`, and `al` and `ax` are its low byte and word.
-/

namespace GLang.Asm

inductive Reg where
  | eax | ecx | edx | esp | ebp
  deriving DecidableEq, Repr

def Reg.text : Reg → String
  | eax => "eax"
  | ecx => "ecx"
  | edx => "edx"
  | esp => "esp"
  | ebp => "ebp"

/-- The size of a memory access. -/
inductive Width where
  | byte | word | dword
  deriving DecidableEq, Repr

namespace Width

def text : Width → String
  | byte => "BYTE"
  | word => "WORD"
  | dword => "DWORD"

/-- The part of the accumulator that an access moves. -/
def accumulator : Width → String
  | byte => "al"
  | word => "ax"
  | dword => "eax"

/-- How many bytes an access moves. -/
def bytes : Width → Nat
  | byte => 1
  | word => 2
  | dword => 4

/-- The access for a value of `n` bytes. -/
def ofBytes : Nat → Width
  | 1 => byte
  | 2 => word
  | _ => dword

end Width

/-- A memory operand. -/
inductive Address where
  /-- `offset` bytes below the frame base. -/
  | frame (offset : Int)
  /-- Where the register points. -/
  | indirect (base : Reg)
  /-- `n` bytes above the top of the stack. -/
  | stack (n : Nat)
  deriving DecidableEq, Repr

def Address.text : Address → String
  | frame offset =>
    if 0 < offset then "[ebp-" ++ toString offset ++ "]" else "[ebp+" ++ toString (-offset) ++ "]"
  | indirect base => "[" ++ base.text ++ "]"
  | stack n => "[esp+" ++ toString n ++ "]"

/-- What an arithmetic instruction takes beside its register. -/
inductive Operand where
  | reg (r : Reg)
  | imm (n : Int)
  deriving DecidableEq, Repr

def Operand.text : Operand → String
  | reg r => r.text
  | imm n => toString n

/-- Two-operand arithmetic; `cmp` and `test` set the flags only. -/
inductive Arith where
  | add | sub | or | xor | cmp | test
  deriving DecidableEq, Repr

def Arith.text : Arith → String
  | add => "add"
  | sub => "sub"
  | or => "or"
  | xor => "xor"
  | cmp => "cmp"
  | test => "test"

/-- What a conditional set asks of the flags. -/
inductive Condition where
  | less | greater | lessEqual | greaterEqual | equal | notEqual | notZero
  deriving DecidableEq, Repr

def Condition.text : Condition → String
  | less => "l"
  | greater => "g"
  | lessEqual => "le"
  | greaterEqual => "ge"
  | equal => "e"
  | notEqual => "ne"
  | notZero => "nz"

/-- An instruction. -/
inductive Instr where
  | pushImm (n : Int)
  | pushLabel (l : Label)
  | pushReg (r : Reg)
  | pushMem (a : Address)
  | pop (r : Reg)
  /-- Loads the address itself. -/
  | lea (dst : Reg) (a : Address)
  | load (dst : Reg) (a : Address)
  | move (dst src : Reg)
  /-- Stores the accumulator. -/
  | store (w : Width) (a : Address)
  /-- Loads the accumulator, zero-extended. -/
  | loadExtended (w : Width) (a : Address)
  /-- Zero-extends the low byte of the accumulator. -/
  | extendByte
  | arith (op : Arith) (dst : Reg) (src : Operand)
  /-- Multiplies the accumulator; the high half of the product goes to `edx`. -/
  | mul (r : Reg)
  /-- Divides `edx:eax`; the quotient goes to the accumulator, the remainder to `edx`. -/
  | div (r : Reg)
  /-- Sets the low byte of the accumulator to one or zero. -/
  | set (c : Condition)
  | inc (w : Width) (a : Address)
  | dec (w : Width) (a : Address)
  | call (function : String)
  | ret
  | jump (l : Label)
  | jumpZero (l : Label)
  | jumpEqual (l : Label)
  deriving DecidableEq, Repr

def Instr.text : Instr → String
  | pushImm n => "push DWORD " ++ toString n
  | pushLabel l => "push " ++ l.text
  | pushReg r => "push " ++ r.text
  | pushMem a => "push DWORD " ++ a.text
  | pop r => "pop " ++ r.text
  | lea dst a => "lea " ++ dst.text ++ ", " ++ a.text
  | load dst a => "mov " ++ dst.text ++ ", " ++ a.text
  | move dst src => "mov " ++ dst.text ++ ", " ++ src.text
  | store w a => "mov " ++ w.text ++ " " ++ a.text ++ ", " ++ w.accumulator
  | loadExtended w a => "movzx eax, " ++ w.text ++ " " ++ a.text
  | extendByte => "movzx eax, al"
  | arith op dst src => op.text ++ " " ++ dst.text ++ ", " ++ src.text
  | mul r => "mul " ++ r.text
  | div r => "div " ++ r.text
  | set c => "set" ++ c.text ++ " al"
  | inc w a => "inc " ++ w.text ++ " " ++ a.text
  | dec w a => "dec " ++ w.text ++ " " ++ a.text
  | call f => "call " ++ f
  | ret => "ret"
  | jump l => "jmp " ++ l.text
  | jumpZero l => "jz " ++ l.text
  | jumpEqual l => "je " ++ l.text

/-- Whether the text of an instruction holds no comment. -/
def Instr.isPlain : Instr → Bool
  | call f => isPlainName f
  | pushLabel l | jump l | jumpZero l | jumpEqual l => l.isPlain
  | _ => true

/-- Makes room for `size` bytes on the stack, if there are any. -/
def reserve (size : Nat) : List Instr :=
  if 0 < size then [.arith .sub .esp (.imm size)] else []

/-- Takes `size` bytes off the stack, if there are any. -/
def release (size : Nat) : List Instr :=
  if 0 < size then [.arith .add .esp (.imm size)] else []

end GLang.Asm
