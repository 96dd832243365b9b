/-!
# The arguments of the command line

One input file, and options before or after it:

* `-o FILE`, `-oFILE`, `-o=FILE`, `--output FILE`, `--output=FILE`: where the assembly text goes,
* `--lex-only`, `--parse-only`: show the tokens or the program instead,
* `-v`, `--verbose`: as often as one likes,
* `-h`, `--help`.

Options of one letter may be written together, and `--` ends the options.
-/

namespace GLang.Command

/-- What the command line asks for. -/
structure Options where
  input : String
  output : Option String := none
  lexOnly : Bool := false
  parseOnly : Bool := false
  verbosity : Nat := 0
  deriving DecidableEq, Repr

/-- Why the arguments ask for nothing that can be done. -/
inductive Refusal where
  | help
  | missingInput
  | unexpected (argument : String)
  | missingValue
  | emptyValue
  | repeated (option : String)
  deriving DecidableEq, Repr

def Refusal.message : Refusal → String
  | help => "usage: [-o FILE] [--lex-only] [--parse-only] [-v] INPUT"
  | missingInput => "error: an input file is required"
  | unexpected argument => s!"error: unexpected argument '{argument}'"
  | missingValue => "error: the option '--output' requires a value"
  | emptyValue => "error: a file name is required"
  | repeated option => s!"error: the option '{option}' cannot be used twice"

/-- The arguments read so far. -/
structure Draft where
  input : Option String := none
  output : Option String := none
  lexOnly : Bool := false
  parseOnly : Bool := false
  verbosity : Nat := 0
  /-- Whether the next argument is the output file. -/
  awaiting : Bool := false
  /-- Whether the options have ended. -/
  ended : Bool := false
  deriving DecidableEq, Repr

namespace Draft

def setInput (d : Draft) (file : String) : Except Refusal Draft :=
  if d.input.isSome then .error (.unexpected file)
  else if file.isEmpty then .error .emptyValue
  else .ok { d with input := some file }

def setOutput (d : Draft) (file : String) : Except Refusal Draft :=
  if d.output.isSome then .error (.repeated "--output")
  else if file.isEmpty then .error .emptyValue
  else .ok { d with output := some file, awaiting := false }

/-- Options of one letter, written together. -/
def readLetters (d : Draft) : List Char → Except Refusal Draft
  | [] => .ok d
  | 'v' :: cs => readLetters { d with verbosity := d.verbosity + 1 } cs
  | 'h' :: _ => .error .help
  | ['o'] => .ok { d with awaiting := true }
  | 'o' :: '=' :: file => d.setOutput (String.ofList file)
  | 'o' :: file => d.setOutput (String.ofList file)
  | c :: _ => .error (.unexpected (String.ofList ['-', c]))

/-- An option written out, and its value if one is attached. -/
def readWord (d : Draft) (name : String) (value : Option String) : Except Refusal Draft :=
  match name, value with
  | "output", some file => d.setOutput file
  | "output", none => .ok { d with awaiting := true }
  | "lex-only", none =>
    if d.lexOnly then .error (.repeated "--lex-only") else .ok { d with lexOnly := true }
  | "parse-only", none =>
    if d.parseOnly then .error (.repeated "--parse-only") else .ok { d with parseOnly := true }
  | "verbose", none => .ok { d with verbosity := d.verbosity + 1 }
  | "help", none => .error .help
  | _, _ => .error (.unexpected ("--" ++ name))

/-- The name of an option written out, and what follows its first equals sign. -/
def splitValue (cs : List Char) : String × Option String :=
  let name := cs.takeWhile (· ≠ '=')
  (String.ofList name,
    if name.length < cs.length then some (String.ofList (cs.drop (name.length + 1))) else none)

/-- Reads one argument. A single hyphen is a file name. -/
def read (d : Draft) (argument : String) : Except Refusal Draft :=
  if d.ended then d.setInput argument
  else match argument.toList with
    | '-' :: '-' :: cs =>
      if d.awaiting then .error .missingValue
      else if cs.isEmpty then .ok { d with ended := true }
      else
        let (name, value) := splitValue cs
        d.readWord name value
    | '-' :: c :: cs => if d.awaiting then .error .missingValue else d.readLetters (c :: cs)
    | _ => if d.awaiting then d.setOutput argument else d.setInput argument

/-- What the arguments ask for, once all are read. -/
def finish (d : Draft) : Except Refusal Options :=
  if d.awaiting then .error .missingValue
  else match d.input with
    | none => .error .missingInput
    | some input => .ok ⟨input, d.output, d.lexOnly, d.parseOnly, d.verbosity⟩

end Draft

/-- What a list of arguments asks for. -/
def Options.ofArgs (args : List String) : Except Refusal Options := do
  (← args.foldlM Draft.read {}).finish

end GLang.Command
