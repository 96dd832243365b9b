import GLang.Asm.Listing
import GLang.Lower.Declarations
import GLang.Lower.Stmt
import GLang.Syntax.Program.Parser

/-!
# Code for programs

* `FunctionDecl.lower`: the code of a function.
* `Generator.generate`: the listing of a program, or all that is wrong with it. A generator can
  compile several programs one after another.
* `compile`: from source text to assembly text.
-/

namespace GLang

open Asm

namespace FunctionDecl

/-- Declares the parameters of a function, the address for an aggregate result first. -/
def declareParams (signature : FunctionSignature) : Gen Unit := do
  match signature.aggregate? with
  | some t => let _ ← Gen.declare resultSlot (.pointer t)
  | none => pure ()
  signature.params.forM fun (name, t) => do
    let _ ← Gen.declare name t

/-- A function around the code of its body, which has `frame` bytes of locals. -/
def frameCode (name : String) (frame : Nat) (body : Code) : Code :=
  [.label (.named name)] ++
  Code.ofInstrs ([.pushReg .ebp, .move .ebp .esp] ++ reserve frame) ++
  body ++
  [.label .returnPoint] ++
  Code.ofInstrs [.move .esp .ebp, .pop .ebp, .ret]

/-- The code of a function. -/
def lower (decl : FunctionDecl) : Gen Code := do
  modify fun g => { g with context := g.context.beginFunction }
  let signature ← Gen.ask (·.functions.get decl.name)
  if signature.external then throw (.unsupported (.definitionOfExternal decl.name))
  modify ({ · with resultType := signature.result })
  let _ ← Gen.openScope .parameter none
  declareParams signature
  let _ ← Gen.openScope .function none
  let body ← Stmt.lowerAll decl.body
  let frame ← Gen.closeScope .function
  let _ ← Gen.closeScope .parameter
  return frameCode decl.name frame body

end FunctionDecl

namespace Generator

/-- Compiles the functions of items, in order; `seen` are the names compiled before. Only the first
function of a name counts, and one whose signature could not be read is passed over: there is a
diagnostic for it already. -/
def functions (g : Generator) (seen : List String) :
    List Item → List Code × List Diagnostic × Generator
  | [] => ([], [], g)
  | .function decl :: rest =>
    if seen.contains decl.name then functions g seen rest
    else if !g.context.functions.contains decl.name then functions g (decl.name :: seen) rest
    else
      match decl.lower.run.run g with
      | (.ok code, g) =>
        let (codes, diagnostics, g) := functions g (decl.name :: seen) rest
        (code :: codes, diagnostics, g)
      | (.error e, g) =>
        let (codes, diagnostics, g) := functions g (decl.name :: seen) rest
        (codes, ⟨decl.name, e⟩ :: diagnostics, g)
  | _ :: rest => functions g seen rest

/-- Starts over with the declarations of a program. -/
def start (g : Generator) (p : Program) : Generator × List Diagnostic :=
  let (declarations, diagnostics) := Declarations.add {} p
  ({ g with context := { toDeclarations := declarations }, output := "" }, diagnostics)

/-- The listing of a program, which is written to the output, or all diagnostics. -/
def generate (g : Generator) (p : Program) : Except (List Diagnostic) Listing × Generator :=
  let (g, inDeclarations) := g.start p
  let (codes, inFunctions, g) := g.functions [] p.items
  let diagnostics := inDeclarations ++ inFunctions
  if diagnostics.isEmpty then
    let imports := (g.context.functions.externals.map (·.name)).filter (· ≠ "memcpy")
    let listing : Listing := ⟨imports, g.context.literals, codes⟩
    (.ok listing, { g with output := g.output ++ listing.text })
  else (.error diagnostics, g)

/-- What stands in the output when a program has been compiled, or all diagnostics. -/
def assemble (g : Generator) (p : Program) : Except (List Diagnostic) String × Generator :=
  let (result, g) := g.generate p
  (result.map fun _ => g.output, g)

end Generator

/-- Why a source text does not compile. -/
inductive CompileError where
  | unreadable (error : SyntaxError)
  | faulty (diagnostics : List Diagnostic)

/-- The assembly text of a program. -/
def Program.assembly (p : Program) : Except (List Diagnostic) String :=
  (Generator.assemble {} p).1

/-- The assembly text of a source text. -/
def compile (source : String) : Except CompileError String := do
  let p ← (Program.ofSource source).mapError .unreadable
  p.assembly.mapError .faulty

end GLang
