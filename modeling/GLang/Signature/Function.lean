import GLang.Lower.Error
import GLang.Ty

/-!
# Functions that can be called

A table keeps the first signature of each name, in the order of the program.
-/

namespace GLang

structure FunctionSignature where
  name : String
  params : List (String × Ty)
  /-- The type of the result, if there is one. -/
  result : Option Ty
  /-- Whether the function is defined elsewhere. -/
  external : Bool
  deriving DecidableEq, Repr

namespace FunctionSignature

/-- The type of the result, if it is an aggregate: then the caller passes the address of a place for
it. -/
def aggregate? (f : FunctionSignature) : Option Ty :=
  f.result.filter (!·.isPrimitive)

def returnsAggregate (f : FunctionSignature) : Bool :=
  f.aggregate?.isSome

end FunctionSignature

/-- The functions of a program, by name. -/
structure FunctionTable where
  entries : List FunctionSignature := []
  deriving DecidableEq, Repr

namespace FunctionTable

def find? (t : FunctionTable) (name : String) : Option FunctionSignature :=
  t.entries.find? (·.name == name)

def get (t : FunctionTable) (name : String) : Except LoweringError FunctionSignature :=
  match t.find? name with
  | some f => .ok f
  | none => .error (.unknownFunction name)

def contains (t : FunctionTable) (name : String) : Bool :=
  (t.find? name).isSome

/-- Adds a signature, unless its name is taken. -/
def insert (t : FunctionTable) (f : FunctionSignature) : FunctionTable :=
  if t.contains f.name then t else ⟨t.entries ++ [f]⟩

/-- The functions defined elsewhere. -/
def externals (t : FunctionTable) : List FunctionSignature :=
  t.entries.filter (·.external)

end FunctionTable

end GLang
