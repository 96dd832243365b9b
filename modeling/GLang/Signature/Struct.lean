import GLang.Ty

/-!
# Structs that have been laid out

A table keeps the first signature of each name.
-/

namespace GLang

/-- A field of a struct; `offset` counts bytes from the start of the struct. -/
structure Field where
  name : String
  type : Ty
  offset : Nat
  deriving DecidableEq, Repr

structure StructSignature where
  name : String
  fields : List Field
  size : Nat
  deriving DecidableEq, Repr

def StructSignature.field? (s : StructSignature) (name : String) : Option Field :=
  s.fields.find? (·.name == name)

/-- The structs of a program, by name. -/
structure StructTable where
  entries : List StructSignature := []
  deriving DecidableEq, Repr

namespace StructTable

def get? (t : StructTable) (name : String) : Option StructSignature :=
  t.entries.find? (·.name == name)

def contains (t : StructTable) (name : String) : Bool :=
  (t.get? name).isSome

/-- Adds a signature, unless its name is taken. -/
def insert (t : StructTable) (s : StructSignature) : StructTable :=
  if t.contains s.name then t else ⟨t.entries ++ [s]⟩

end StructTable

end GLang
