import GLang.Lower.Error
import GLang.Signature.Struct
import GLang.Text.Blank
import GLang.Text.Numeral

/-!
# Type descriptors

A descriptor such as `u8(16)` or `Pair*` is a base name with suffixes, read from the right: `u8*(4)`
is an array of four byte pointers, `u8(4)*` a pointer to an array of four bytes. Blanks may stand
around each part.

* `Ty.ofChars`: the recursion. Each step takes a suffix away, so the length of the text bounds it.
* `Ty.ofDescriptor`: the type that a descriptor names, with the structs known so far.
-/

namespace GLang.Ty

/-- `i8`, `i16` and `i32` are signed, `u8`, `u16` and `u32` are not. -/
def ofName? : List Char → Option Ty
  | ['i', '8'] => some (.primitive 1 true)
  | ['i', '1', '6'] => some (.primitive 2 true)
  | ['i', '3', '2'] => some (.primitive 4 true)
  | ['u', '8'] => some (.primitive 1 false)
  | ['u', '1', '6'] => some (.primitive 2 false)
  | ['u', '3', '2'] => some (.primitive 4 false)
  | _ => none

/-- What stands before and after the last opening parenthesis. -/
def splitAtLastOpen? (cs : List Char) : Option (List Char × List Char) :=
  let back := cs.reverse
  match back.dropWhile (· ≠ '(') with
  | [] => none
  | _ :: front => some (front.reverse, (back.takeWhile (· ≠ '(')).reverse)

/-- An array type, unless it is larger than any object may be. `descriptor` is how it is written. -/
def arrayOf (descriptor : List Char) (element : Ty) (count : Nat) : Except LoweringError Ty :=
  if element.alignedSize * count ≤ maxFrameSize then .ok (.array element count)
  else .error (.unsupported (.oversizedArray (String.ofList descriptor)))

/-- The type that a text of fewer than `bound` characters names. -/
def ofChars (structs : StructTable) : Nat → List Char → Except LoweringError Ty
  | 0, cs => .error (.unknownType (String.ofList cs))
  | bound + 1, cs =>
    let unknown := LoweringError.unknownType (String.ofList cs)
    let text := Text.trim cs
    match text.getLast? with
    | none => .error unknown
    | some '*' => do return .pointer (← ofChars structs bound text.dropLast)
    | some ')' =>
      match splitAtLastOpen? text.dropLast with
      | none => .error unknown
      | some (front, inside) =>
        match Text.count? (Text.trim inside) with
        | none => .error unknown
        | some count => do
          let element ← ofChars structs bound front
          arrayOf text element count
    | some _ =>
      match ofName? text with
      | some type => .ok type
      | none =>
        match structs.get? (String.ofList text) with
        | some s => .ok (.struct s.name s.size)
        | none => .error unknown

/-- The type that a descriptor names. -/
def ofDescriptor (structs : StructTable) (descriptor : String) : Except LoweringError Ty :=
  ofChars structs (descriptor.length + 1) descriptor.toList

end GLang.Ty
