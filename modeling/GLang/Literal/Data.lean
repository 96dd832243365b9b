/-!
# The bytes of a string literal

A literal becomes the operand list of a `db` directive, with a zero byte at its end. Quoted runs
stand for themselves, the assembler knowing no escapes in them; escapes and quotes become byte
values.
-/

namespace GLang.Literal

/-- A part of a literal's data. -/
inductive Datum where
  /-- Characters that stand for themselves. -/
  | run (chars : List Char)
  /-- A byte that is written as a number. -/
  | byte (n : Nat)
  deriving DecidableEq, Repr

/-- The byte that a backslash and `c` stand for, if `c` is not to stand for itself. -/
def escape? : Char → Option Nat
  | 'n' => some 0xA
  | 't' => some 0x9
  | '0' => some 0x0
  | '\\' => some 0x5C
  | '"' => some 0x22
  | '\'' => some 0x27
  | _ => none

/-- The byte as which a quote character is written. -/
def quote? : Char → Option Nat
  | '"' => some 0x22
  | '\'' => some 0x27
  | _ => none

/-- What a literal is made of, one character or byte after another: a backslash that ends the
literal stands for nothing. -/
def units : List Char → List (Char ⊕ Nat)
  | [] => []
  | ['\\'] => []
  | '\\' :: c :: cs =>
    match escape? c with
    | some n => .inr n :: units cs
    | none => .inl c :: units cs
  | c :: cs =>
    match quote? c with
    | some n => .inr n :: units cs
    | none => .inl c :: units cs

/-- Gathers characters that follow one another into runs. -/
def gather : List (Char ⊕ Nat) → List Datum
  | [] => []
  | .inr n :: rest => .byte n :: gather rest
  | .inl c :: rest =>
    match gather rest with
    | .run cs :: more => .run (c :: cs) :: more
    | more => .run [c] :: more

/-- The data of a literal, without the zero byte at its end. -/
def data (raw : String) : List Datum :=
  gather (units raw.toList)

/-- A hexadecimal digit, in capitals. -/
def hexDigit (n : Nat) : Char :=
  if n < 10 then Char.ofNat ('0'.toNat + n) else Char.ofNat ('A'.toNat + (n - 10))

/-- A byte as a hexadecimal number, without leading zeros. -/
def byteText (n : Nat) : String :=
  "0x" ++ String.ofList (if n < 16 then [hexDigit n] else [hexDigit (n / 16), hexDigit (n % 16)])

def Datum.text : Datum → String
  | run chars => "\"" ++ String.ofList chars ++ "\""
  | byte n => byteText n

/-- The operands of the `db` directive for a literal. -/
def operands (raw : String) : String :=
  ", ".intercalate ((data raw).map Datum.text ++ ["0"])

end GLang.Literal
