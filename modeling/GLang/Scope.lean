import GLang.Lower.Error
import GLang.Ty

/-!
# Scopes

A scope is a block with its symbols and a cursor, which tells how far below the frame base its
symbols reach. Parameters lie above the frame base, so their cursor is negative; each takes one slot
of four bytes, whatever its type.

* `Scope.allocate`: places a symbol.
* `Scope.complete`: pads what the scope takes to a whole number of dwords.
* `Scope.localSize`: the bytes that a scope reserves.
-/

namespace GLang

/-- A name with its place: `offset` bytes below the frame base is its lowest byte. -/
structure Symbol where
  name : String
  type : Ty
  offset : Int
  deriving DecidableEq, Repr

def Symbol.address (s : Symbol) : Asm.Address :=
  .frame s.offset

/-- Where `continue` and `break` go. -/
structure LoopLabels where
  continueTo : Asm.Label
  breakTo : Asm.Label
  deriving DecidableEq, Repr

/-- The cursor of an empty parameter scope: the saved frame base and the return address lie between
the frame base and the first parameter. -/
def parameterStart : Int := -8

/-- The bytes of a parameter slot. -/
def parameterSlot : Int := 4

/-- A block: its symbols, oldest first, and how far they reach. -/
structure Scope where
  id : Nat
  kind : ScopeKind
  symbols : List Symbol := []
  start : Int
  cursor : Int
  /-- Where the exits of a loop go. -/
  labels : Option LoopLabels := none
  deriving DecidableEq, Repr

namespace Scope

/-- A scope without symbols. -/
def empty (id : Nat) (kind : ScopeKind) (start : Int) : Scope :=
  { id, kind, start, cursor := start }

def get? (s : Scope) (name : String) : Option Symbol :=
  s.symbols.find? (·.name == name)

/-- The end of a value of type `t` placed after `cursor`; `none` if it is beyond the largest
frame. -/
def place? (cursor : Int) (t : Ty) : Option Int :=
  let stop := alignUp cursor t.alignment + t.alignedSize
  if t.alignedSize < 0x80000000 ∧ stop ≤ maxFrameSize then some stop else none

/-- The scope with one more symbol, and a new cursor. -/
def add (s : Scope) (symbol : Symbol) (cursor : Int) : Scope :=
  { s with symbols := s.symbols ++ [symbol], cursor }

/-- Places a symbol. A parameter takes the next slot towards the caller; anything else is placed
below what the scope holds, at a multiple of its alignment. -/
def allocate (s : Scope) (name : String) (t : Ty) : Except LoweringError (Symbol × Scope) :=
  if (s.get? name).isSome then .error (.duplicateSymbol name)
  else if s.kind = .parameter then
    let symbol : Symbol := ⟨name, t, s.cursor⟩
    .ok (symbol, s.add symbol (s.cursor - parameterSlot))
  else
    match place? s.cursor t with
    | none => .error (.unsupported (.beyondFrame name))
    | some stop =>
      let symbol : Symbol := ⟨name, t, stop⟩
      .ok (symbol, s.add symbol stop)

/-- The bytes that the scope reserves below its parent. -/
def localSize (s : Scope) : Nat :=
  if s.kind = .parameter then 0 else (s.cursor - s.start).toNat

/-- Pads what the scope takes to a whole number of dwords. -/
def complete (s : Scope) : Scope :=
  if s.kind ≠ .parameter ∧ s.start < s.cursor then
    { s with cursor := s.start + alignUp (s.cursor - s.start) 4 }
  else s

end Scope

end GLang
