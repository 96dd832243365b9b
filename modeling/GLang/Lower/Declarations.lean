import GLang.Lower.Context
import GLang.Syntax.Program

/-!
# What the declarations of a program say

Before any code is made, the string literals are numbered, the structs are laid out, and the
signatures of the functions are read. A struct may use only the structs above it. Of two
declarations with one name the first counts.

A declaration that cannot be read gives a diagnostic, and the others are read all the same.
-/

namespace GLang

namespace StructDecl

/-- Places fields one after another in the scope `s`. -/
def placeFields (structs : StructTable) :
    Scope → List Binding → Except LoweringError (List Field × Scope)
  | s, [] => .ok ([], s)
  | s, binding :: rest => do
    let t ← Ty.ofDescriptor structs binding.type
    let (symbol, s) ← s.allocate binding.name t
    let (fields, s) ← placeFields structs s rest
    return (⟨binding.name, t, (symbol.offset - t.alignedSize).toNat⟩ :: fields, s)

/-- The layout of a struct. -/
def layout (structs : StructTable) (decl : StructDecl) : Except LoweringError StructSignature := do
  let (fields, scope) ← placeFields structs (.empty 0 .struct 0) decl.fields
  return ⟨decl.name, fields, scope.complete.localSize⟩

end StructDecl

namespace FunctionDecl

/-- The parameters with their types. -/
def readParams (structs : StructTable) : List Binding → Except LoweringError (List (String × Ty))
  | [] => .ok []
  | binding :: rest => do
    let t ← Ty.ofDescriptor structs binding.type
    return (binding.name, t) :: (← readParams structs rest)

/-- The last parameter that is an aggregate and has others after it. A slot has four bytes, so such
a parameter would shift the ones after it. -/
def misplaced? (params : List (String × Ty)) : Option (String × Ty) :=
  params.dropLast.reverse.find? (!·.2.isPrimitive)

/-- The signature of a function. -/
def signature (structs : StructTable) (external : Bool) (decl : FunctionDecl) :
    Except LoweringError FunctionSignature := do
  let params ← readParams structs decl.params
  match misplaced? params with
  | some (name, t) => throw (.unsupported (.aggregateBeforeOthers name t.text))
  | none =>
    match decl.result with
    | none => return ⟨decl.name, params, none, external⟩
    | some type => return ⟨decl.name, params, some (← Ty.ofDescriptor structs type), external⟩

end FunctionDecl

namespace Declarations

/-- Adds the structs of items, in order. -/
def addStructs : StructTable → List Item → StructTable × List Diagnostic
  | structs, [] => (structs, [])
  | structs, .struct decl :: rest =>
    if structs.contains decl.name then addStructs structs rest
    else match decl.layout structs with
      | .ok s => addStructs (structs.insert s) rest
      | .error e =>
        let (structs, diagnostics) := addStructs structs rest
        (structs, ⟨decl.name, e⟩ :: diagnostics)
  | structs, _ :: rest => addStructs structs rest

/-- Adds the functions of items, in order. -/
def addFunctions (structs : StructTable) :
    FunctionTable → List Item → FunctionTable × List Diagnostic
  | functions, [] => (functions, [])
  | functions, item :: rest =>
    match item.function? with
    | none => addFunctions structs functions rest
    | some (decl, external) =>
      match decl.signature structs external with
      | .ok f => addFunctions structs (functions.insert f) rest
      | .error e =>
        let (functions, diagnostics) := addFunctions structs functions rest
        (functions, ⟨decl.name, e⟩ :: diagnostics)

/-- Adds what the declarations of a program say. -/
def add (d : Declarations) (p : Program) : Declarations × List Diagnostic :=
  let literals := d.literals.internAll p.strings
  let (structs, inStructs) := addStructs d.structs p.items
  let (functions, inFunctions) := addFunctions structs d.functions p.items
  ({ functions, structs, literals }, inStructs ++ inFunctions)

end Declarations

end GLang
