import GLang.Command.Run
import GLang.Proofs.Arguments
import GLang.Proofs.Files

/-!
# What a run of the command line writes

A run writes one file or none. It writes one if no stage fails that its arguments ask for and if
they do not ask to see the tokens or the program instead; then the file at the output path holds
what a fresh generator makes of the input, and all other files are as before.

All of this is said of the arguments and of the files, for any reader that follows the usage of the
options and any file system.

* `Command.Fails`: the ways in which a run can fail.
* `Command.Compiles`: what it means that a run has written its output.
* `Command.runWith_cases`: a run fails, or shows something, or writes.
* `Command.writes_only_on_success`: all of it, for every list of arguments that can be read.
-/

namespace GLang.Command

/-! ### Stages -/

/-- Where the arguments want the assembly text: in the file that they name for it, or else beside
the input. -/
inductive Target (args : List String) : String → Prop where
  | named {path : String} (h : Given args (.output path)) : Target args path
  | beside {input : String} (h : ∀ path, ¬ Given args (.output path))
    (hinput : Given args (.input input)) : Target args (Path.withExtension input "asm")

section

variable {σ : Type} (fs : FileSystem (StateM σ)) (s : σ) (args : List String)

/-- The text that is read from the input file. -/
def ReadsInput (source : String) : Prop :=
  ∃ path, Given args (.input path) ∧ ((fs.read path).run s).1 = .ok source

/-- The ways in which a run can fail. The stages come one after another, and an argument that asks
to see the tokens or the program leaves out those behind. -/
inductive Fails : Prop where
  | reading {path : String} {e : FileError} (input : Given args (.input path))
      (h : ((fs.read path).run s).1 = .error e)
  | lexing {source : String} {e : SyntaxError} (read : ReadsInput fs s args source)
      (h : Token.ofSource source = .error e)
  | parsing {source : String} {tokens : List Spanned} {e : SyntaxError}
      (read : ReadsInput fs s args source) (lexed : Token.ofSource source = .ok tokens)
      (lexOnly : ¬ Given args .lexOnly) (h : Program.ofTokens tokens = .error e)
  | generating {source : String} {program : Program} {diagnostics : List Diagnostic}
      (read : ReadsInput fs s args source) (parsed : Program.ofSource source = .ok program)
      (lexOnly : ¬ Given args .lexOnly) (parseOnly : ¬ Given args .parseOnly)
      (h : program.assembly = .error diagnostics)
  | writing {source text path : String} {program : Program} {e : FileError}
      (read : ReadsInput fs s args source) (parsed : Program.ofSource source = .ok program)
      (lexOnly : ¬ Given args .lexOnly) (parseOnly : ¬ Given args .parseOnly)
      (generated : program.assembly = .ok text) (target : Target args path)
      (h : ((fs.write path text).run s).1 = .error e)

end

/-- The output file is the one that the arguments name, or the input file with the extension
`asm`. -/
def NamesTarget (args : List String) (path : String) : Prop :=
  Given args (.output path) ∨ (∀ other, ¬ Given args (.output other)) ∧
    ∃ input, Given args (.input input) ∧ Path.ReplacesExtension input "asm" path

/-- In `s'` the output file holds the text that a fresh generator makes of the input in `s`, and all
other files are as in `s`. -/
def Compiles {σ κ : Type} {fs : FileSystem (StateM σ)} (places : fs.Places κ) (args : List String)
    (s s' : σ) : Prop :=
  ∃ source program text path k, ReadsInput fs s args source ∧
    Program.ofSource source = .ok program ∧ program.assembly = .ok text ∧ NamesTarget args path ∧
    places.place? s path = some k ∧ places.place? s' path = some k ∧
    places.file? s' k = some (.text text) ∧
    ∀ other, other ≠ k → places.file? s' other = places.file? s other

/-! ### Responses -/

section Respond

variable {o : Options} {paint : Report.Painter} {source : String} {tokens : List Spanned}
variable {program : Program} {e : SyntaxError}

theorem respond_of_not_lexed (h : Token.ofSource source = .error e) :
    ∃ message, o.respond paint source = .error message := by
  unfold Options.respond
  rw [h]
  exact ⟨_, rfl⟩

theorem respond_of_lexOnly (h : Token.ofSource source = .ok tokens) (hl : o.lexOnly = true) :
    ∃ text, o.respond paint source = .ok (.print text) := by
  unfold Options.respond
  rw [h, hl]
  exact ⟨_, rfl⟩

theorem respond_of_not_parsed (h : Token.ofSource source = .ok tokens) (hl : o.lexOnly = false)
    (hparse : Program.ofTokens tokens = .error e) :
    ∃ message, o.respond paint source = .error message := by
  unfold Options.respond
  simp only [h, hl, Except.mapError, bind, Except.bind, hparse]
  exact ⟨_, rfl⟩

/-- Once the program is known, the tokens no longer matter. -/
theorem respond_of_parsed (h : Program.ofSource source = .ok program) (hl : o.lexOnly = false) :
    o.respond paint source =
      if o.parseOnly then .ok (.print program.outline)
      else (program.assembly.mapError (Report.ofDiagnostics paint o.input)).map
        (Action.write o.outputPath) := by
  obtain ⟨tokens, hlex, hparse⟩ := except_bind_eq_ok.1 h
  unfold Options.respond
  simp only [hlex, hl, Except.mapError, bind, Except.bind, hparse]
  cases o.parseOnly with
  | true => rfl
  | false => cases program.assembly <;> rfl

end Respond

/-! ### Runs -/

section Run

variable {σ : Type} {fs : FileSystem (StateM σ)} {s s' : σ} {o : Options} {paint : Report.Painter}
variable {source text path : String} {e : FileError}

theorem runWith_of_not_read (h : (fs.read o.input).run s = (.error e, s)) :
    (runWith paint fs o).run s = (.failed (o.readFailure e), s) := by
  simp only [runWith, StateT.run_bind, h]
  rfl

theorem runWith_of_error {message : String} (h : (fs.read o.input).run s = (.ok source, s))
    (hr : o.respond paint source = .error message) :
    (runWith paint fs o).run s = (.failed message, s) := by
  simp only [runWith, StateT.run_bind, h]
  simp only [bind, hr]
  rfl

theorem runWith_of_print (h : (fs.read o.input).run s = (.ok source, s))
    (hr : o.respond paint source = .ok (.print text)) :
    (runWith paint fs o).run s = (.succeeded text, s) := by
  simp only [runWith, StateT.run_bind, h]
  simp only [bind, hr]
  rfl

theorem runWith_of_not_written (h : (fs.read o.input).run s = (.ok source, s))
    (hr : o.respond paint source = .ok (.write path text))
    (hw : (fs.write path text).run s = (.error e, s')) :
    (runWith paint fs o).run s = (.failed (Options.writeFailure path e), s') := by
  simp only [runWith, StateT.run_bind, h]
  simp only [bind, hr]
  show (StateT.run (fs.write path text >>= _) s) = _
  rw [StateT.run_bind, hw]
  rfl

theorem runWith_of_written (h : (fs.read o.input).run s = (.ok source, s))
    (hr : o.respond paint source = .ok (.write path text))
    (hw : (fs.write path text).run s = (.ok (), s')) :
    (runWith paint fs o).run s = (.succeeded o.success, s') := by
  simp only [runWith, StateT.run_bind, h]
  simp only [bind, hr]
  show (StateT.run (fs.write path text >>= _) s) = _
  rw [StateT.run_bind, hw]
  rfl

end Run

/-! ### Arguments and options -/

section Options

variable {reader : Reader} (hf : Follows reader) {args : List String} {o : Options}
variable (ho : reader args = .ok o) {σ κ : Type} {fs : FileSystem (StateM σ)} {s : σ}
variable {source path : String}

include hf ho

theorem readsInput_iff :
    ReadsInput fs s args source ↔ ((fs.read o.input).run s).1 = .ok source := by
  constructor
  · rintro ⟨path, hpath, h⟩
    rwa [(hf.input ho path).1 hpath]
  · exact fun h => ⟨o.input, (hf.input ho _).2 rfl, h⟩

theorem not_lexOnly_iff : ¬ Given args .lexOnly ↔ o.lexOnly = false := by
  rw [hf.lexOnly ho, Bool.not_eq_true]

theorem not_parseOnly_iff : ¬ Given args .parseOnly ↔ o.parseOnly = false := by
  rw [hf.parseOnly ho, Bool.not_eq_true]

theorem not_output_iff : (∀ path, ¬ Given args (.output path)) ↔ o.output = none := by
  simp only [hf.output ho]
  exact Option.eq_none_iff_forall_ne_some.symm

theorem target_iff : Target args path ↔ o.outputPath = path := by
  constructor
  · rintro (hnamed | ⟨hnone, hinput⟩)
    · rw [Options.outputPath, (hf.output ho path).1 hnamed, Option.getD_some]
    · rw [Options.outputPath, (not_output_iff hf ho).1 hnone, Option.getD_none,
        (hf.input ho _).1 hinput]
  · rintro rfl
    cases houtput : o.output with
    | some path =>
      rw [Options.outputPath, houtput, Option.getD_some]
      exact .named ((hf.output ho path).2 houtput)
    | none =>
      rw [Options.outputPath, houtput, Option.getD_none]
      exact .beside ((not_output_iff hf ho).2 houtput) ((hf.input ho _).2 rfl)

theorem namesTarget_of_written (hinput : Path.NamesFile o.input)
    (houtput : Path.NamesFile o.outputPath) : NamesTarget args o.outputPath := by
  cases hpath : o.output with
  | some path =>
    refine .inl ((hf.output ho _).2 ?_)
    rw [Options.outputPath, hpath, Option.getD_some]
  | none =>
    refine .inr ⟨(not_output_iff hf ho).2 hpath, o.input, (hf.input ho _).2 rfl, ?_⟩
    rw [Options.outputPath, hpath, Option.getD_none] at houtput ⊢
    exact Path.replacesExtension_withExtension hinput houtput

variable (paint : Report.Painter) (places : fs.Places κ)

/-- A run that fails does so with a message, and it leaves all files as they were. -/
theorem runWith_of_fails (h : Fails fs s args) : ∃ message s',
    (runWith paint fs o).run s = (.failed message, s') ∧
      ∀ k, places.file? s' k = places.file? s k := by
  have hstate := places.read_state o.input s
  have herror : ∀ {source : String}, ReadsInput fs s args source →
      (∃ message, o.respond paint source = .error message) → ∃ message s',
        (runWith paint fs o).run s = (.failed message, s') ∧
          ∀ k, places.file? s' k = places.file? s k := by
    rintro source hread ⟨message, hr⟩
    exact ⟨message, s,
      runWith_of_error (Prod.ext ((readsInput_iff hf ho).1 hread) hstate) hr, fun _ => rfl⟩
  cases h with
  | reading input h =>
    rw [← (hf.input ho _).1 input] at h
    exact ⟨_, s, runWith_of_not_read (Prod.ext h hstate), fun _ => rfl⟩
  | lexing read h => exact herror read (respond_of_not_lexed h)
  | parsing read lexed lexOnly h =>
    exact herror read (respond_of_not_parsed lexed ((not_lexOnly_iff hf ho).1 lexOnly) h)
  | generating read parsed lexOnly parseOnly h =>
    refine herror read ?_
    rw [respond_of_parsed parsed ((not_lexOnly_iff hf ho).1 lexOnly),
      (not_parseOnly_iff hf ho).1 parseOnly, h]
    exact ⟨_, rfl⟩
  | @writing source text _ _ e read parsed lexOnly parseOnly generated target h =>
    obtain rfl := (target_iff hf ho).1 target
    have hr : o.respond paint source = .ok (.write o.outputPath text) := by
      rw [respond_of_parsed parsed ((not_lexOnly_iff hf ho).1 lexOnly),
        (not_parseOnly_iff hf ho).1 parseOnly, generated]
      rfl
    have hw :
        (fs.write o.outputPath text).run s = (.error e, ((fs.write o.outputPath text).run s).2) :=
      Prod.ext h rfl
    exact ⟨_, _, runWith_of_not_written (Prod.ext ((readsInput_iff hf ho).1 read) hstate) hr hw,
      places.write_error hw⟩

/-- A run fails, or shows what it is asked to show, or writes the text of its input. The cases
follow the stages: each of them fails, or is the last one asked for, or leads to the next. -/
theorem runWith_cases : Fails fs s args ∨
    ((Given args .lexOnly ∨ Given args .parseOnly) ∧
      ∃ text, (runWith paint fs o).run s = (.succeeded text, s)) ∨
    (¬ Given args .lexOnly ∧ ¬ Given args .parseOnly ∧ ∃ s',
      (runWith paint fs o).run s = (.succeeded o.success, s') ∧ Compiles places args s s') := by
  have hstate := places.read_state o.input s
  cases hread : ((fs.read o.input).run s).1 with
  | error e => exact .inl (.reading ((hf.input ho _).2 rfl) hread)
  | ok source =>
  have hreads : ReadsInput fs s args source := (readsInput_iff hf ho).2 hread
  have hrun : (fs.read o.input).run s = (.ok source, s) := Prod.ext hread hstate
  cases hlex : Token.ofSource source with
  | error e => exact .inl (.lexing hreads hlex)
  | ok tokens =>
  cases hl : o.lexOnly with
  | true =>
    obtain ⟨text, hr⟩ := respond_of_lexOnly hlex hl
    exact .inr (.inl ⟨.inl ((hf.lexOnly ho).2 hl), text, runWith_of_print hrun hr⟩)
  | false =>
  have hl' := (not_lexOnly_iff hf ho).2 hl
  cases hparse : Program.ofTokens tokens with
  | error e => exact .inl (.parsing hreads hlex hl' hparse)
  | ok program =>
  have hparsed : Program.ofSource source = .ok program := except_bind_eq_ok.2 ⟨tokens, hlex, hparse⟩
  cases hp : o.parseOnly with
  | true =>
    have hr : o.respond paint source = .ok (.print program.outline) := by
      rw [respond_of_parsed hparsed hl, hp, if_pos rfl]
    exact .inr (.inl ⟨.inr ((hf.parseOnly ho).2 hp), _, runWith_of_print hrun hr⟩)
  | false =>
  have hp' := (not_parseOnly_iff hf ho).2 hp
  cases hgen : program.assembly with
  | error diagnostics => exact .inl (.generating hreads hparsed hl' hp' hgen)
  | ok text =>
  have hr : o.respond paint source = .ok (.write o.outputPath text) := by
    rw [respond_of_parsed hparsed hl, hp, hgen]
    rfl
  rcases hwrite : (fs.write o.outputPath text).run s with ⟨e | ⟨⟩, s'⟩
  · exact .inl (.writing hreads hparsed hl' hp' hgen ((target_iff hf ho).2 rfl) (by rw [hwrite]))
  · obtain ⟨houtput, k, hplace, hplace', hfile, hothers⟩ := places.write_ok hwrite
    have hnames := namesTarget_of_written hf ho (places.read_ok hread).1 houtput
    exact .inr (.inr ⟨hl', hp', s', runWith_of_written hrun hr hwrite, source, program, text, _, k,
      hreads, hparsed, hgen, hnames, hplace, hplace', hfile, hothers⟩)

end Options

/-- **A run writes only if it succeeds.** Let a reader follow the usage of the options and take the
arguments. Then the run fails exactly if a stage fails that they ask for. If it fails, or if they
ask to see the tokens or the program, all files stay as they were; if not, the output file holds the
text of the input, and no other file has changed. -/
theorem writes_only_on_success {reader : Reader} (hf : Follows reader) {args : List String}
    {o : Options} (ho : reader args = .ok o) (paint : Report.Painter) {σ κ : Type}
    {fs : FileSystem (StateM σ)} (places : fs.Places κ) {s s' : σ} {outcome : Outcome}
    (h : (run reader paint fs args).run s = (outcome, s')) :
    (outcome.exit = 1 ↔ Fails fs s args) ∧
      (outcome.exit = 1 ∨ Given args .lexOnly ∨ Given args .parseOnly →
        ∀ k, places.file? s' k = places.file? s k) ∧
      (outcome.exit ≠ 1 → outcome.exit = 0 ∧
        (¬ Given args .lexOnly → ¬ Given args .parseOnly → Compiles places args s s')) := by
  have hrun : run reader paint fs args = runWith paint fs o := by
    simp only [run, ho]
  rw [hrun] at h
  have hsucceeded : ∀ {text : String} {s₁ : σ},
      (runWith paint fs o).run s = (.succeeded text, s₁) → ¬ Fails fs s args := by
    intro text s₁ hout hfails
    obtain ⟨message, s₂, hfailed, -⟩ := runWith_of_fails hf ho paint places hfails
    cases congrArg (·.1.exit) (hout.symm.trans hfailed)
  rcases runWith_cases hf ho paint places with
    hfails | ⟨hflag, text, hout⟩ | ⟨hl, hp, s₁, hout, hcompiles⟩
  · obtain ⟨message, s₁, hout, hfiles⟩ := runWith_of_fails hf ho paint places hfails
    cases hout.symm.trans h
    exact ⟨iff_of_true rfl hfails, fun _ => hfiles, fun hexit => absurd rfl hexit⟩
  · have hok := hsucceeded hout
    cases hout.symm.trans h
    refine ⟨iff_of_false Nat.zero_ne_one hok, fun _ _ => rfl, fun _ => ⟨rfl, fun hl hp => ?_⟩⟩
    exact absurd hflag (not_or.2 ⟨hl, hp⟩)
  · have hok := hsucceeded hout
    cases hout.symm.trans h
    refine ⟨iff_of_false Nat.zero_ne_one hok, fun hsilent => ?_,
      fun _ => ⟨rfl, fun _ _ => hcompiles⟩⟩
    rcases hsilent with hexit | hlex | hparse
    · cases hexit
    · exact absurd hlex hl
    · exact absurd hparse hp

/-- A source file above the working directory, with two points in its name. -/
def sampleTree : FileTree where
  home := ["home", "me"]
  files := [(["home", "src", "a.b.g"], .text "fn f() { }")]

/-- The file is compiled to the one beside it. -/
theorem writes_only_on_success_of_two_points :
    Options.ofArgs ["-v", "../src/./a.b.g"] = .ok { input := "../src/./a.b.g", verbosity := 1 } ∧
    ∃ t : FileTree, (run Options.ofArgs .off FileTree.fileSystem ["-v", "../src/./a.b.g"]).run
        sampleTree = (.succeeded "Compiled ../src/./a.b.g to ../src/./a.b.asm\n", t) ∧
      t.files.map Prod.fst = [["home", "src", "a.b.g"], ["home", "src", "a.b.asm"]] ∧
      Compiles FileTree.places ["-v", "../src/./a.b.g"] sampleTree t := by
  have hargs : Options.ofArgs ["-v", "../src/./a.b.g"] =
    .ok { input := "../src/./a.b.g", verbosity := 1 } := by decide
  have hend : ((run Options.ofArgs .off FileTree.fileSystem ["-v", "../src/./a.b.g"]).run
        sampleTree).1 = .succeeded "Compiled ../src/./a.b.g to ../src/./a.b.asm\n" ∧
      ((run Options.ofArgs .off FileTree.fileSystem ["-v", "../src/./a.b.g"]).run
        sampleTree).2.files.map Prod.fst =
          [["home", "src", "a.b.g"], ["home", "src", "a.b.asm"]] := by
    decide +kernel
  rcases hrun : (run Options.ofArgs .off FileTree.fileSystem ["-v", "../src/./a.b.g"]).run
    sampleTree with ⟨outcome, t⟩
  rw [hrun] at hend
  obtain ⟨rfl, hfiles⟩ := hend
  obtain ⟨-, -, hok⟩ :=
    writes_only_on_success Options.follows_ofArgs hargs .off FileTree.places hrun
  exact ⟨hargs, t, rfl, hfiles, (hok (by decide)).2
    ((not_lexOnly_iff Options.follows_ofArgs hargs).2 rfl)
    ((not_parseOnly_iff Options.follows_ofArgs hargs).2 rfl)⟩

end GLang.Command
