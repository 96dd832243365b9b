import GLang.Command.FileSystem
import GLang.Command.Options
import GLang.Command.Path
import GLang.Lower.Program
import GLang.Report

/-!
# The command line

A run reads its input file, compiles it and writes the assembly text, or shows what it was asked to
show. Whatever fails is told on the error channel and makes the run fail; then nothing is written.

How the arguments are read, how messages are painted and what the files are is left open.

* `Options.respond`: what is to be done with a source text.
* `run`: a whole run.
-/

namespace GLang.Command

/-- What is to be done after the stages have passed. -/
inductive Action where
  /-- Show a text. -/
  | print (text : String)
  /-- Write a text to a file. -/
  | write (path text : String)
  deriving DecidableEq, Repr

namespace Options

/-- Where the assembly text goes. -/
def outputPath (o : Options) : String :=
  o.output.getD (Path.withExtension o.input "asm")

/-- What is to be done with a source text, or what is wrong with it. -/
def respond (o : Options) (paint : Report.Painter) (source : String) : Except String Action := do
  let refuse := Report.ofSyntaxError paint o.input source
  let tokens ← (Token.ofSource source).mapError refuse
  if o.lexOnly then return .print (String.join (tokens.map fun t => t.text ++ "\n"))
  let program ← (Program.ofTokens tokens).mapError refuse
  if o.parseOnly then return .print program.outline
  let text ← program.assembly.mapError (Report.ofDiagnostics paint o.input)
  return .write o.outputPath text

def readFailure (o : Options) (e : FileError) : String :=
  s!"Error reading file '{o.input}': {e.message}"

def writeFailure (path : String) (e : FileError) : String :=
  s!"Error writing output file '{path}': {e.message}"

/-- What is shown when the assembly text has been written. -/
def success (o : Options) : String :=
  s!"Compiled {o.input} to {o.outputPath}\n"

end Options

/-- How a run ends. -/
structure Outcome where
  exit : Nat
  stdout : String := ""
  stderr : String := ""
  deriving DecidableEq, Repr

namespace Outcome

def succeeded (text : String) : Outcome :=
  { exit := 0, stdout := text }

def failed (message : String) : Outcome :=
  { exit := 1, stderr := message ++ "\n" }

/-- The end of a run whose arguments ask for nothing that can be done. -/
def refused (r : Refusal) : Outcome :=
  if r = .help then succeeded (r.message ++ "\n")
  else { exit := 2, stderr := r.message ++ "\n" }

end Outcome

/-- Reads a list of arguments. -/
abbrev Reader := List String → Except Refusal Options

section Run

variable {m : Type → Type} [Monad m]

/-- A run with options that could be read. -/
def runWith (paint : Report.Painter) (fs : FileSystem m) (o : Options) : m Outcome := do
  match ← fs.read o.input with
  | .error e => return .failed (o.readFailure e)
  | .ok source =>
    match o.respond paint source with
    | .error message => return .failed message
    | .ok (.print text) => return .succeeded text
    | .ok (.write path text) =>
      match ← fs.write path text with
      | .error e => return .failed (Options.writeFailure path e)
      | .ok () => return .succeeded o.success

/-- A run: what it does with the files, and how it ends. -/
def run (reader : Reader) (paint : Report.Painter) (fs : FileSystem m) (args : List String) :
    m Outcome :=
  match reader args with
  | .error r => return .refused r
  | .ok o => runWith paint fs o

end Run

end GLang.Command
