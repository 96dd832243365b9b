import GLang.Asm.Instr

/-!
# Types

Primitives and pointers fit in a register. Arrays and structs are *aggregates*: they are moved by
bulk copy and take a whole number of dwords.

* `alignUp`: the next multiple of an alignment.
* `Ty.idealSize`, `Ty.alignedSize`: the bytes of a value without and with padding.
* `Ty.width`: the memory access that moves a primitive.
-/

namespace GLang

/-- The least multiple of `align` that is not below `value`; `value` itself if the alignment is one
or less. -/
def alignUp (value align : Int) : Int :=
  if align ≤ 1 then value else (value + align - 1) / align * align

/-- `size` rounded up to a whole number of dwords. Sizes are 32-bit words, and rounding takes them
as signed: from `2 ^ 31` on they stand for negative numbers. -/
def padToDword (size : Nat) : Nat :=
  (alignUp ((size : Int).bmod 0x100000000) 4 % 0x100000000).toNat

/-- A type of G. -/
inductive Ty where
  /-- An integer of `width` bytes. -/
  | primitive (width : Nat) (signed : Bool)
  | pointer (pointee : Ty)
  | array (element : Ty) (count : Nat)
  | struct (name : String) (size : Nat)
  deriving DecidableEq, Repr

namespace Ty

def int32 : Ty := .primitive 4 true

def byte : Ty := .primitive 1 false

/-- Whether a value fits in a register. -/
def isPrimitive : Ty → Bool
  | primitive _ _ | pointer _ => true
  | array _ _ | struct _ _ => false

def isPointer : Ty → Bool
  | pointer _ => true
  | _ => false

def isArray : Ty → Bool
  | array _ _ => true
  | _ => false

/-- The bytes that a value takes in memory. -/
def alignedSize : Ty → Nat
  | primitive width _ =>
    match width with
    | 1 => 1
    | 2 => 2
    | _ => 4
  | pointer _ => 4
  | array element count => padToDword (element.alignedSize * count)
  | struct _ size => padToDword size

/-- The bytes of a value, without the padding at its end. -/
def idealSize : Ty → Nat
  | primitive width _ => width
  | pointer _ => 4
  | array element count => element.alignedSize * count
  | struct _ size => size

/-- What the place of a value is a multiple of. -/
def alignment (t : Ty) : Nat :=
  if t.isPrimitive then t.alignedSize else 4

/-- The memory access that moves a value of this size. -/
def width (t : Ty) : Asm.Width :=
  .ofBytes t.alignedSize

/-- The bytes that a value takes on the stack. -/
def stackSize (t : Ty) : Nat :=
  if t.isPrimitive then 4 else t.alignedSize

/-- What a dereference reads: what a pointer points to, or an element of an array. -/
def pointee? : Ty → Option Ty
  | pointer pointee => some pointee
  | array element _ => some element
  | primitive _ _ | struct _ _ => none

/-- The written form of a type. -/
def text : Ty → String
  | primitive width signed => (if signed then "i" else "u") ++ toString (width * 8)
  | pointer pointee => pointee.text ++ "*"
  | array element count => element.text ++ "(" ++ toString count ++ ")"
  | struct name _ => name

end Ty

end GLang
