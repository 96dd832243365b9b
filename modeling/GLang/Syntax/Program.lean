import GLang.Syntax.Stmt

/-!
# Programs

A program is a list of items: functions, functions defined elsewhere, and structs. Types are kept as
descriptor text.
-/

namespace GLang

/-- A name with its type descriptor: a parameter or a field. -/
structure Binding where
  name : String
  type : String
  deriving DecidableEq, Repr

/-- A function. One that is defined elsewhere has an empty body. -/
structure FunctionDecl where
  name : String
  params : List Binding
  result : Option String
  body : Block := []

structure StructDecl where
  name : String
  fields : List Binding
  deriving DecidableEq, Repr

inductive Item where
  /-- `extern fn …;`: a function defined elsewhere. -/
  | external (decl : FunctionDecl)
  | struct (decl : StructDecl)
  | function (decl : FunctionDecl)

/-- The function that an item declares, and whether it is defined elsewhere. -/
def Item.function? : Item → Option (FunctionDecl × Bool)
  | external decl => some (decl, true)
  | function decl => some (decl, false)
  | struct _ => none

/-- A whole source text. -/
structure Program where
  items : List Item

/-- The lines of the outline that an item gives. -/
def Item.outline : Item → String
  | external decl => s!"  Extern({decl.name})\n"
  | struct decl => s!"  Struct({decl.name}, {decl.fields.length} fields)\n"
  | function decl =>
    s!"  Function({decl.name})\n" ++
      String.join (decl.body.map fun s => "    " ++ s.summary ++ "\n")

/-- An outline of the program: its items and the statements at the top of each function. -/
def Program.outline (p : Program) : String :=
  "Program\n" ++ String.join (p.items.map Item.outline)

/-- The string literals in the bodies of the functions, in source order and with repetitions. -/
def Program.strings (p : Program) : List String :=
  p.items.flatMap fun
    | .function decl => Stmt.blockStrings decl.body
    | _ => []

end GLang
